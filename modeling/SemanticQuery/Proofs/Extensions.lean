import SemanticQuery.Proofs.NewEntries
import SemanticQuery.Proofs.OpenReferences

/-!
Builders with one more concept. A concept over a placeholder can be added to a builder that builds,
if the reference that the placeholder was handed out for is answered by a declared concept.
Calendar parts are derived when concepts have been bound already, so that columns can refer to them
but concepts cannot.
-/

namespace SemanticQuery

theorem DateParts.address_part {c x : Concept} {operator : Operator}
    (made : DateParts.part c operator = .ok x) :
    x.address = c.address ++ "." ++ operator.name := by
  obtain ⟨call, _, made⟩ := bind_eq_ok.mp made
  cases made
  simp [Concept.address, Concept.withMetadata, Concept.withKeys, Concept.derive,
    Concept.withGrain, String.append_assoc]

theorem NameMap.get?_foldl_insertIfNew_eq (cs : List Concept) (m : NameMap Concept)
    (name : String) :
    (cs.foldl (fun m c => m.insertIfNew c.address c) m).get? name =
      (m.get? name).or (cs.find? (·.address == name)) := by
  induction cs generalizing m with
  | nil => simp
  | cons c cs ih =>
    rw [List.foldl_cons, ih, insertIfNew, List.find?_cons]
    by_cases same : c.address = name
    · subst same
      rw [contains_eq_isSome]
      cases held : m.get? c.address with
      | none => simp [get?_insert]
      | some x => simp [held]
    · rw [beq_false_of_ne same]
      split
      · rfl
      · rw [get?_insert, if_neg (Ne.symm same)]

theorem NameMap.findSome?_insert {m : NameMap α} {name : String} {value : α}
    {g : String × α → Option β} (free : name ∉ m.keys) (none : g (name, value) = none) :
    (m.insert name value).entries.findSome? g = m.entries.findSome? g := by
  unfold insert keys at *
  dsimp only
  generalize m.entries = entries at free
  induction entries with
  | nil => simp [place, none]
  | cons first rest ih =>
    simp only [List.map_cons, List.mem_cons, not_or] at free
    rw [place]
    split
    · simp [none]
    · rw [if_neg free.1, List.findSome?_cons, List.findSome?_cons, ih free.2]

/-- The calendar part of a name among those of a concept. -/
def DateParts.named? (name : String) (c : Concept) : Option Concept :=
  if c.datatype.isTemporal && c.metadata.source != .autoDerived then
    ((DateParts.parts c).toOption.getD []).find? (·.address == name)
  else none

theorem Builder.get?_addDateParts {concepts dated : NameMap Concept}
    (done : addDateParts concepts = .ok dated) (name : String) :
    dated.get? name = (concepts.get? name).or
      (concepts.entries.findSome? fun entry => DateParts.named? name entry.2) := by
  obtain ⟨parts, made, done⟩ := bind_eq_ok.mp done
  cases done
  have all := congrArg (List.map fun x => (Except.toOption x).getD []) (mapM_eq_ok.mp made)
  have each : parts = (concepts.values.filter fun c =>
      c.datatype.isTemporal && c.metadata.source != .autoDerived).map
        fun c => (DateParts.parts c).toOption.getD [] := by
    simpa [Except.toOption, Function.comp_def] using all.symm
  rw [NameMap.get?_foldl_insertIfNew_eq, List.find?_flatten, each, List.findSome?_map,
    NameMap.values]
  congr 1
  generalize concepts.entries = entries
  induction entries with
  | nil => rfl
  | cons first rest ih =>
    rw [List.map_cons, List.filter_cons, List.findSome?_cons, DateParts.named?]
    split
    · rw [List.findSome?_cons, ih]
      rfl
    · exact ih

theorem DateParts.named?_eq_none {name : String} {c : Concept} (apart : Apart c.address name) :
    DateParts.named? name c = none := by
  unfold named?
  split
  · refine List.find?_eq_none.mpr fun x member same => ?_
    obtain ⟨parts, made⟩ := exists_parts c
    rw [made] at member
    obtain ⟨operator, _, made⟩ := exists_of_mem_mapM made member
    refine apart.2 ?_
    have below : name.toList = (c.address ++ ".").toList ++ operator.name.toList := by
      rw [← eq_of_beq same, address_part made, String.toList_append]
    exact below ▸ List.prefix_append _ _
  · rfl

/-- A new concept makes no difference to the names apart from it. -/
theorem Builder.get?_addDateParts_insert {concepts dated larger : NameMap Concept} {c : Concept}
    (free : c.address ∉ concepts.keys) (done : addDateParts concepts = .ok dated)
    (also : addDateParts (concepts.insert c.address c) = .ok larger) {name : String}
    (apart : Apart c.address name) : larger.get? name = dated.get? name := by
  rw [get?_addDateParts done, get?_addDateParts also, NameMap.get?_insert, if_neg apart.1,
    NameMap.findSome?_insert free (DateParts.named?_eq_none apart)]

namespace Builder

/-- The calendar parts, if they are asked for. -/
def derived (b : Builder) (bound : NameMap Concept) : Except PlanError (NameMap Concept) :=
  if b.deriveDateParts then addDateParts bound else .ok bound

theorem build_eq_ok {b : Builder} {catalog : Catalog} :
    b.build = .ok catalog ↔ ∃ bound concepts datasources, bind b.concepts = .ok bound ∧
      b.derived bound = .ok concepts ∧ b.datasources.mapM (bindColumns concepts) = .ok datasources ∧
        Catalog.of concepts datasources = catalog := by
  have run : b.build = bind b.concepts >>= fun bound => b.derived bound >>= fun concepts =>
      b.datasources.mapM (bindColumns concepts) >>= fun datasources =>
        pure (Catalog.of concepts datasources) := by
    unfold build derived
    congr 1
    funext bound
    split <;> rfl
  rw [run]
  constructor
  · intro built
    obtain ⟨bound, binding, built⟩ := bind_eq_ok.mp built
    obtain ⟨concepts, dated, built⟩ := bind_eq_ok.mp built
    obtain ⟨datasources, columns, built⟩ := bind_eq_ok.mp built
    exact ⟨bound, concepts, datasources, binding, dated, columns, pure_eq_ok.mp built⟩
  · rintro ⟨bound, concepts, datasources, binding, dated, columns, same⟩
    exact bind_eq_ok.mpr ⟨bound, binding, bind_eq_ok.mpr ⟨concepts, dated,
      bind_eq_ok.mpr ⟨datasources, columns, pure_eq_ok.mpr same⟩⟩⟩

theorem bindColumn_congr {concepts larger : NameMap Concept} {column bound : Column}
    (agree : column.concept.Throughout fun p => p.isPlaceholder = true →
      ∀ e, larger.resolve p.address = .ok e ↔ concepts.resolve p.address = .ok e)
    (done : bindColumn concepts column = .ok bound) : bindColumn larger column = .ok bound := by
  unfold bindColumn at done ⊢
  split
  · next seen =>
    rw [if_pos seen] at done
    obtain ⟨c, rebound, done⟩ := bind_eq_ok.mp done
    refine bind_eq_ok.mpr ⟨c, ?_, done⟩
    rw [← rebound]
    refine Concept.rebind_congr _ fun p reaches missing => ?_
    obtain ⟨e, found, _⟩ := Concept.exists_of_reaches_placeholder reaches missing rebound
    rw [found]
    exact (agree p reaches missing e).mpr found
  · next clean =>
    rwa [if_neg clean] at done

theorem deriveDateParts_addConcept {b next : Builder} {c : Concept} {allowDuplicate : Bool}
    (added : b.addConcept c allowDuplicate = .ok next) :
    next.deriveDateParts = b.deriveDateParts := by
  unfold addConcept at added
  dsimp only at added
  split at added
  · cases added
  · cases added
    rfl

variable {b : Builder} {bound dated : NameMap Concept}

theorem get?_derived (parts : b.derived bound = .ok dated) {key : String} {x : Concept}
    (held : bound.get? key = some x) : dated.get? key = some x := by
  unfold derived at parts
  split at parts
  · rw [get?_addDateParts parts, held]
    rfl
  · cases parts
    exact held

theorem exists_derived_insert {c : Concept} (free : c.address ∉ bound.keys)
    (parts : b.derived bound = .ok dated) :
    ∃ larger, b.derived (bound.insert c.address c) = .ok larger ∧
      ∀ name, Apart c.address name → larger.get? name = dated.get? name := by
  by_cases asked : b.deriveDateParts = true
  · simp only [derived, if_pos asked] at parts ⊢
    obtain ⟨larger, done, _⟩ := exists_addDateParts (bound.insert c.address c)
    exact ⟨larger, done, fun _ apart => get?_addDateParts_insert free parts done apart⟩
  · simp only [derived, if_neg asked] at parts ⊢
    cases parts
    refine ⟨_, rfl, fun name apart => ?_⟩
    rw [NameMap.get?_insert, if_neg apart.1]

end Builder

theorem mapM_mono {f g : α → Except ε β} {as : List α} {bs : List β}
    (follows : ∀ a ∈ as, ∀ b, f a = .ok b → g a = .ok b) (done : as.mapM f = .ok bs) :
    as.mapM g = .ok bs := by
  rw [mapM_eq_ok] at done ⊢
  rw [← done]
  refine List.map_inj_left.mpr fun a member => ?_
  have listed : f a ∈ bs.map .ok := done ▸ List.mem_map_of_mem member
  obtain ⟨b, _, same⟩ := List.mem_map.mp listed
  rw [follows a member b same.symm, same]

/-- Whether a reference to an address is reached from a concept. -/
def Concept.RefersTo (c : Concept) (address : String) : Prop :=
  ∃ p, c.Reaches p ∧ p.isPlaceholder = true ∧ p.address = address

namespace Builder

/-- Whether an address is referred to from an entry or a column. -/
def RefersTo (b : Builder) (address : String) : Prop :=
  (∃ key x, b.concepts.get? key = some x ∧ x.RefersTo address) ∨
    ∃ d ∈ b.datasources, ∃ column ∈ d.columns, column.concept.RefersTo address

/-- A concept under an address that is neither taken nor referred to, over a single placeholder. -/
structure Adds (b : Builder) (catalog : Catalog) (p c : Concept) : Prop where
  free : c.address ∉ catalog.concepts.keys
  unreferred : ∀ address, address = p.address ∨ b.RefersTo address → Spares c.address address
  whole : c.Throughout Concept.Sealed
  only : ∀ q, c.Reaches q → q.isPlaceholder = true → q = p
  reached : c.Reaches p

variable {b extended : Builder} {bound dated : NameMap Concept} {datasources : List Datasource}
  {c : Concept}

/-- A builder with a new concept builds if its entries can be bound with the concept beside them. -/
theorem Joins.exists_build (joins : Joins b.concepts bound c)
    (entries : b.concepts.Sealed) (settled : b.concepts.Settled)
    (binding : bind b.concepts = .ok bound) (closed : bound.Closed)
    (parts : b.derived bound = .ok dated)
    (columns : b.datasources.mapM (bindColumns dated) = .ok datasources)
    (unreferred : ∀ address, b.RefersTo address → Spares c.address address)
    (added : b.addConcept c false = .ok extended) : ∃ larger, extended.build = .ok larger := by
  obtain ⟨made, same, binds⟩ := joins.exists_bind entries settled binding closed
  have free : made.address ∉ bound.keys := by
    rw [same, keys_bindWithin binding]
    exact joins.free
  obtain ⟨larger, more, agree⟩ := exists_derived_insert free parts
  rw [← concepts_addConcept added, ← same] at binds
  refine ⟨_, build_eq_ok.mpr ⟨_, larger, datasources, binds, ?_, ?_, rfl⟩⟩
  · rw [derived, deriveDateParts_addConcept added]
    exact more
  · rw [datasources_addConcept added]
    refine mapM_mono (fun d member e done => ?_) columns
    obtain ⟨made, each, done⟩ := bind_eq_ok.mp done
    refine bind_eq_ok.mpr ⟨made, mapM_mono (fun column listed _ => ?_) each, done⟩
    refine bindColumn_congr fun p reaches missing e => ?_
    have spares := unreferred p.address
      (.inr ⟨d, member, column, listed, p, reaches, missing, rfl⟩)
    rw [← same] at spares
    exact (NameMap.resolve_congr (agree _ spares.here) (agree _ spares.inDefault)).2

/-- With a concept in which a placeholder is seen, a builder builds only if that is found. -/
theorem exists_resolve_of_build {p : Concept} {larger : Catalog}
    (spares : Spares c.address p.address) (reached : c.Reaches p) (missing : p.isPlaceholder = true)
    (seen : c.hasPlaceholders = true) (added : b.addConcept c false = .ok extended)
    (built : extended.build = .ok larger) : ∃ x, b.concepts.resolve p.address = .ok x := by
  obtain ⟨bound, _, _, binding, _⟩ := build_eq_ok.mp built
  rw [concepts_addConcept added] at binding
  have held : (b.concepts.insert c.address c).get? c.address = some c := by
    rw [NameMap.get?_insert, if_pos rfl]
  rcases bindWithin_cases binding with ⟨none, _⟩ | ⟨_, _, next, _, once, _⟩
  · cases (unbound_eq_nil.mp none _ c held).symm.trans seen
  · obtain ⟨made, _, ⟨_, rebound⟩ | ⟨clean, _⟩⟩ := exists_passes once held
    · obtain ⟨e, found, _⟩ := Concept.exists_of_reaches_placeholder reached missing rebound
      exact ⟨e, (resolve_insert spares).2.mp found⟩
    · cases seen.symm.trans clean

theorem isPlaceholder_placeholderOf (address : String) :
    (placeholderOf address).isPlaceholder = true := by
  unfold placeholderOf
  dsimp only
  split <;> rfl

/-- The placeholder of a reference has its address, in the default namespace unless it names one. -/
theorem address_of_lookup {handedOut : String → Prop} {next : Builder} {reference : String}
    {p : Concept} (tracks : b.Tracks handedOut)
    (handed : b.lookup reference = .ok (.undefined p, next)) :
    p.isPlaceholder = true ∧ p.address = if '.' ∈ reference.toList then reference
      else defaultNamespace ++ "." ++ reference := by
  generalize named : SemanticQuery.qualify b.concepts.contains reference = address
  have placed : b.concepts.get? address = none ∧ p = placeholderOf address := by
    rcases b.lookup_cases reference named with ⟨_, _, answer⟩ |
      ⟨absent, ⟨_, _, answer⟩ | ⟨_, ⟨q, remembered, answer⟩ | ⟨_, answer⟩⟩⟩
    · cases answer.symm.trans handed
    · cases answer.symm.trans handed
    · cases answer.symm.trans handed
      exact ⟨absent, tracks.held address p remembered⟩
    · cases answer.symm.trans handed
      exact ⟨absent, rfl⟩
  obtain ⟨absent, rfl⟩ := placed
  have missed : b.concepts.contains address = false := by
    rw [NameMap.contains_eq_isSome, absent]
    rfl
  refine ⟨isPlaceholder_placeholderOf address, ?_⟩
  rw [address_placeholderOf (named ▸ dot_mem_qualify (named ▸ missed)), ← named]
  subst named
  unfold SemanticQuery.qualify at missed ⊢
  dsimp only at missed ⊢
  split
  · next known =>
    rw [if_pos known, known] at missed
    cases missed
  · next unknown =>
    rw [if_neg unknown] at missed
    by_cases dotted : '.' ∈ reference.toList
    · have longer : b.concepts.contains (defaultNamespace ++ "." ++ reference) = false := by
        by_contra found
        rw [if_pos (by simp [found])] at missed
        exact found missed
      simp [dotted, longer]
    · simp [dotted]

end Builder

/-- A reference stands for the same in a catalog with more entries, if it stands for an old one
there. -/
theorem qualify_of_known {known all : String → Bool} {reference : String}
    (grows : ∀ name, known name = true → all name = true)
    (dotted : ∀ name, all name = true → '.' ∈ name.toList)
    (declared : known (qualify all reference) = true) :
    qualify known (if '.' ∈ reference.toList then reference
      else defaultNamespace ++ "." ++ reference) = qualify all reference := by
  have fails (name : String) (absent : all name ≠ true) : known name ≠ true :=
    fun found => absent (grows name found)
  by_cases named : '.' ∈ reference.toList
  · rw [if_pos named]
    unfold qualify at declared ⊢
    dsimp only at declared ⊢
    by_cases here : all reference = true
    · rw [if_pos here] at declared ⊢
      rw [if_pos declared]
    · rw [if_neg here] at declared ⊢
      rw [if_neg (fails reference here)]
      by_cases longer : all (defaultNamespace ++ "." ++ reference) = true
      · rw [if_pos (by simp [longer])] at declared
        simp [longer, declared]
      · rw [if_neg (by simp [longer, named])] at declared
        exact absurd declared (fails reference here)
  · have unknown : all reference ≠ true := fun found => named (dotted reference found)
    have whole : qualify all reference = defaultNamespace ++ "." ++ reference := by
      simp [qualify, unknown, named]
    rw [whole] at declared
    rw [if_neg named, whole, qualify, if_pos declared]

namespace Builder

variable {b : Builder}

theorem Assembled.perform (assembled : b.Assembled) (action : Action) :
    (b.perform action).Assembled := by
  cases action with
  | addConcept c allowDuplicate =>
    cases added : b.addConcept c allowDuplicate with
    | error e =>
      rw [Builder.perform, added]
      exact assembled
    | ok next =>
      rw [Builder.perform, added]
      exact assembled.addConcept added
  | addDatasource d =>
    obtain ⟨next, added⟩ := b.exists_addDatasource d
    rw [Builder.perform, added]
    exact assembled.addDatasource added
  | lookup reference =>
    cases looked : b.lookup reference with
    | error e =>
      rw [Builder.perform, looked]
      exact assembled
    | ok answer =>
      rw [Builder.perform, looked]
      exact assembled.lookup looked

theorem Assembled.performAll (assembled : b.Assembled) (actions : List Action) :
    (b.performAll actions).Assembled := by
  induction actions generalizing b with
  | nil => exact assembled
  | cons action rest ih => exact ih (assembled.perform action)

theorem dot_mem_address (c : Concept) : '.' ∈ c.address.toList := by
  simp [Concept.address]

/-- What is declared stays declared in the catalog, under addresses with a namespace. -/
theorem Assembled.derived (assembled : b.Assembled) {bound dated : NameMap Concept}
    (binding : bind b.concepts = .ok bound) (parts : b.derived bound = .ok dated) :
    (∀ name, b.concepts.contains name = true → dated.contains name = true) ∧
      ∀ name, dated.contains name = true → '.' ∈ name.toList := by
  obtain ⟨keyed, kept⟩ := keyed_bindWithin assembled.orderly.keyed binding
  obtain ⟨keyed, more⟩ : dated.Keyed ∧ ∀ address ∈ bound.keys, address ∈ dated.keys := by
    unfold Builder.derived at parts
    split at parts
    · exact keyed_addDateParts keyed parts
    · cases parts
      exact ⟨keyed, fun _ own => own⟩
  simp only [NameMap.contains_iff]
  refine ⟨fun name member => more name (kept name member), fun name member => ?_⟩
  obtain ⟨entry, listed, rfl⟩ := List.mem_map.mp member
  rw [← keyed entry listed]
  exact dot_mem_address entry.2

theorem hasPlaceholders_of_bindWithin {concepts final : NameMap Concept} {passes : Nat}
    (done : bindWithin passes concepts = .ok final) {key : String} {c : Concept}
    (held : final.get? key = some c) : c.hasPlaceholders = false := by
  have none : unbound final = [] :=
    bindWithin_induction (motive := fun _ => unbound final = []) id (fun _ _ _ _ _ ih => ih) done
  exact unbound_eq_nil.mp none key c held

/-- Without filters a bound catalog has nothing open. -/
theorem closed_of_unfiltered {concepts final : NameMap Concept} {passes : Nat}
    (unfiltered : concepts.Lacks .filter) (done : bindWithin passes concepts = .ok final) :
    final.Closed ∧ final.Sealed := by
  have kept : final.Lacks .filter :=
    bindWithin_keeps (NameMap.Lacks · .filter)
      (fun _ _ lacks once => lacks_bindOnce once lacks) unfiltered done
  have clean {key : String} {c x : Concept} (held : final.get? key = some c)
      (reaches : c.Reaches x) : x.hasPlaceholders = false := by
    refine Bool.eq_false_iff.mpr fun seen => ?_
    have outside := Concept.hasPlaceholders_of_reaches (kept key c held) reaches seen
    cases (hasPlaceholders_of_bindWithin done held).symm.trans outside
  refine ⟨fun key c held x reaches => ?_, fun key c held x reaches _ y read => ?_⟩
  · exact (Concept.hasPlaceholders_eq_false.mp (clean held reaches)).2.1
  · exact (Concept.hasPlaceholders_eq_false.mp (clean held reaches)).2.2 y
      (List.mem_append_right _ read)

theorem Adds.joins {bound : NameMap Concept} {catalog : Catalog} {p c e : Concept}
    (adds : b.Adds catalog p c) (free : c.address ∉ b.concepts.keys)
    (resolves : b.concepts.Resolves) (found : ∃ x, b.concepts.resolve p.address = .ok x)
    (final : bound.resolve p.address = .ok e)
    (typed : ∃ made, c.rebind (fun _ => .ok e) = .ok made) : Joins b.concepts bound c := by
  have own := adds.unreferred p.address (.inl rfl)
  refine ⟨free, fun key x held q reaches missing => ?_, fun q reaches missing => ?_, ?_, adds.whole,
    ?_⟩
  · exact ⟨adds.unreferred q.address (.inr (.inl ⟨key, x, held, q, reaches, missing, rfl⟩)),
      resolves key x held q reaches missing⟩
  · rw [adds.only q reaches missing]
    exact ⟨own, found⟩
  · refine Bool.eq_false_iff.mpr fun missing => own.here.1 ?_
    rw [← adds.only c (.refl c) missing]
  · obtain ⟨made, done⟩ := typed
    refine ⟨made, (c.rebind_congr fun q reaches missing => ?_).trans done⟩
    rw [adds.only q reaches missing]
    exact final

/-- Take a builder that builds and a reference that its catalog answers, and add a new concept over
the placeholder that was handed out for the reference. The builder still builds if the answer is a
declared concept and, where the placeholder is seen, only if that stands for one: not if the answer
was derived. -/
theorem build_extended {failOnMissing deriveDateParts : Bool} {before after : List Action}
    {reference : String} {asked b extended : Builder} {p c e : Concept} {catalog : Catalog}
    (handed : ((fresh failOnMissing deriveDateParts).performAll before).lookup reference =
      .ok (.undefined p, asked))
    (run : asked.performAll after = b)
    (formed : ∀ key x, b.concepts.get? key = some x → x.Formed (· ≠ .unknown))
    (known : ∀ key x, b.concepts.get? key = some x →
      x.Throughout fun y => y.derivation = .multiSelect → y.datatype ≠ .unknown)
    (built : b.build = .ok catalog)
    (complete : b.concepts.Lacks .filter ∨ catalog.concepts.Closed ∧ catalog.concepts.Sealed)
    (answers : catalog.concept reference = .ok e) (adds : b.Adds catalog p c)
    (typed : ∃ bound, c.rebind (fun _ => .ok e) = .ok bound)
    (added : b.addConcept c false = .ok extended) :
    (catalog.qualify reference ∈ b.concepts.keys → ∃ larger, extended.build = .ok larger) ∧
      (c.hasPlaceholders = true → (∃ larger, extended.build = .ok larger) →
        ∃ x, b.concepts.resolve p.address = .ok x) := by
  have assembled : b.Assembled := by
    rw [← run]
    exact (Assembled.lookup (.performAll (.fresh _ _) before) handed).performAll after
  obtain ⟨missing, address⟩ := address_of_lookup ((tracks_fresh _ _).performAll before) handed
  have own := adds.unreferred p.address (.inl rfl)
  refine ⟨fun declared => ?_, fun seen ⟨_, larger⟩ =>
    exists_resolve_of_build own adds.reached missing seen added larger⟩
  obtain ⟨bound, dated, datasources, binding, parts, columns, rfl⟩ := build_eq_ok.mp built
  have keys : bound.keys = b.concepts.keys := keys_bindWithin binding
  obtain ⟨grows, dotted⟩ := assembled.derived binding parts
  have last : bound.Closed ∧ bound.Sealed := by
    rcases complete with unfiltered | ⟨closed, whole⟩
    · exact closed_of_unfiltered unfiltered binding
    · exact ⟨fun key x held => closed key x (get?_derived parts held),
        fun key x held => whole key x (get?_derived parts held)⟩
  obtain ⟨closed, whole⟩ := last
  have settled : b.concepts.Settled := fun key x held y reaches =>
    ((formed key x held).regular y reaches).settled (known key x held y reaches)
  -- the placeholder stands for the same entry before and after
  have target : SemanticQuery.qualify b.concepts.contains p.address =
      SemanticQuery.qualify dated.contains reference := by
    rw [address]
    exact qualify_of_known grows dotted (NameMap.contains_iff.mpr declared)
  have final : bound.resolve p.address = .ok e := by
    rw [NameMap.resolve_eq_ok, NameMap.contains_congr keys, target]
    obtain ⟨x, held⟩ := NameMap.exists_get?_of_mem_keys (keys ▸ declared)
    have found := NameMap.resolve_eq_ok.mp answers
    cases (get?_derived parts held).symm.trans found
    exact held
  have free : c.address ∉ b.concepts.keys := fun member =>
    adds.free (NameMap.contains_iff.mp (grows c.address (NameMap.contains_iff.mpr member)))
  have joins := adds.joins free (resolves_of_closed binding closed)
    (NameMap.exists_resolve_congr keys.symm final) final typed
  exact joins.exists_build (sealed_of_bindWithin binding whole) settled binding closed parts columns
    (fun address refers => adds.unreferred address (.inr refers)) added

end Builder

instance (address name : String) : Decidable (Apart address name) :=
  inferInstanceAs (Decidable (_ ∧ _))

instance (address reference : String) : Decidable (Spares address reference) :=
  decidable_of_iff (Apart address reference ∧ Apart address (defaultNamespace ++ "." ++ reference))
    ⟨fun both => ⟨both.1, both.2⟩, fun spares => ⟨spares.here, spares.inDefault⟩⟩

/-- Whether an address is spared by all references, as a check. -/
theorem Builder.spares_of_reachesOnly {b : Builder} {address reference : String} (steps : Nat)
    (entries : b.concepts.values.all
      (·.reachesOnly (fun p => !p.isPlaceholder || decide (Spares address p.address)) steps) = true)
    (columns : b.datasources.all (fun d => d.columns.all
      (·.concept.reachesOnly (fun p => !p.isPlaceholder || decide (Spares address p.address))
        steps)) = true)
    (refers : b.RefersTo reference) : Spares address reference := by
  have check {c : Concept} (refers : c.RefersTo reference) (checked : c.reachesOnly
      (fun p => !p.isPlaceholder || decide (Spares address p.address)) steps = true) :
      Spares address reference := by
    obtain ⟨p, reaches, missing, rfl⟩ := refers
    simpa [missing] using Concept.of_reachesOnly checked reaches
  rcases refers with ⟨key, x, held, refers⟩ | ⟨d, member, column, listed, refers⟩
  · have listed := List.mem_map_of_mem (f := Prod.snd) (NameMap.mem_entries_of_get? held)
    exact check refers (List.all_eq_true.mp entries x listed)
  · exact check refers (List.all_eq_true.mp (List.all_eq_true.mp columns d member) column listed)

/-- Two selects of one output, which are aligned. -/
def MultiSelect.twice (output : Concept) (align : List AlignItem) : MultiSelect :=
  let select : Select := ⟨[.concept output []], none, none, none⟩
  ⟨[select, select], align, defaultNamespace⟩

namespace Bills

/-- The total is asked for before anything is declared. -/
def asked : Builder := (Builder.fresh false true).perform (.lookup "total")

/-- The bills of two selects, as one output. -/
def bills : MultiSelect := .twice bill [⟨"either_bill", [bill]⟩]

def eitherBill : Concept := AlignItem.mergeConcept ⟨"either_bill", [bill]⟩ bills

def declared : Builder :=
  asked.performAll
    ([total, amount, bill, eitherBill].map fun c => .addConcept c false)

def doubled : Concept :=
  .derive "doubled" .auto
    (.call ⟨.multiply, [.concept (Builder.placeholderOf "local.total"), .literal (.integer 2)],
      .unknown, .property⟩)

theorem formed_declared (key : String) (c : Concept) (held : declared.concepts.get? key = some c) :
    c.Formed (· ≠ .unknown) := by
  have same : declared.concepts =
      .ofList ([total, amount, bill, eitherBill].map fun c => (c.address, c)) := rfl
  rw [same] at held
  have listed := NameMap.mem_of_mem_ofList (NameMap.mem_entries_of_get? held)
  have sum : Call.of .sum [.concept (.placeholder "local" "amount")] =
      .ok ⟨.sum, [.concept (.placeholder "local" "amount")], .unknown, .metric⟩ := rfl
  have all : ∀ c ∈ [total, amount, bill, eitherBill], c.Formed (· ≠ .unknown) := by
    simp only [List.forall_mem_cons]
    refine ⟨.derive "total" .auto (.call (.of ?_ sum)),
      .withKeys (.declare "amount" .float .property) ?_, .declare "bill" .integer .key,
      .merge ⟨"either_bill", [bill]⟩ bills, List.forall_mem_nil _⟩
    · exact List.forall_mem_singleton.mpr (.concept (.placeholder "local" "amount"))
    · exact List.forall_mem_singleton.mpr (.placeholder "local" "bill")
  obtain ⟨d, member, same⟩ := List.mem_map.mp listed
  exact (Prod.mk.inj same).2 ▸ all d member

theorem known_declared (key : String) (c : Concept) (held : declared.concepts.get? key = some c) :
    c.Throughout fun x => x.derivation = .multiSelect → x.datatype ≠ .unknown := by
  have checked : declared.concepts.values.all (·.reachesOnly
      (fun x => decide (x.derivation = .multiSelect → x.datatype ≠ .unknown)) 2) = true := by
    decide +kernel
  have listed := List.mem_map_of_mem (f := Prod.snd) (NameMap.mem_entries_of_get? held)
  intro x reaches
  exact of_decide_eq_true
    (Concept.of_reachesOnly (List.all_eq_true.mp checked c listed) reaches)

theorem reaches_doubled {x : Concept} (reaches : doubled.Reaches x) :
    x = doubled ∨ x = Builder.placeholderOf "local.total" := by
  have mentions : doubled.mentions = [Builder.placeholderOf "local.total"] := rfl
  rcases Relation.ReflTransGen.cases_head reaches with rfl | ⟨y, member, reaches⟩
  · exact .inl rfl
  · rw [mentions, List.mem_singleton] at member
    subst member
    exact .inr (Concept.reaches_of_isPlaceholder rfl reaches)

end Bills

/-- The new concept is three references away from the bill, through a total whose type is not known
before the amount is. -/
theorem Builder.build_extended_doubled :
    ((fresh false true).performAll []).lookup "total" =
        .ok (.undefined (placeholderOf "local.total"), Bills.asked) ∧
      ∃ catalog e extended larger, Bills.declared.build = .ok catalog ∧
        catalog.concept "total" = .ok e ∧ Bills.declared.Adds catalog
          (placeholderOf "local.total") Bills.doubled ∧
        Bills.declared.addConcept Bills.doubled false = .ok extended ∧
        extended.build = .ok larger := by
  have handed : ((fresh false true).performAll []).lookup "total" =
      .ok (.undefined (placeholderOf "local.total"), Bills.asked) := rfl
  have runs : Settles Bills.declared.build (fun catalog =>
      Bills.doubled.address ∉ catalog.concepts.keys ∧
        catalog.qualify "total" ∈ Bills.declared.concepts.keys ∧
        Settles (catalog.concept "total") (fun e =>
          Settles (Bills.doubled.rebind fun _ => .ok e) (fun _ => True) fun _ => False)
          fun _ => False) fun _ => False := by
    decide +kernel
  have adding : Settles (Bills.declared.addConcept Bills.doubled false) (fun _ => True)
      fun _ => False := by
    decide +kernel
  obtain ⟨catalog, built, free, registered, found⟩ := runs.exists_ok
  obtain ⟨e, answers, fits⟩ := found.exists_ok
  obtain ⟨made, typed, _⟩ := fits.exists_ok
  obtain ⟨extended, added, _⟩ := adding.exists_ok
  have unfiltered : Bills.declared.concepts.Lacks .filter :=
    NameMap.lacks_of_reachesOnly 2 (by decide +kernel)
  have adds : Bills.declared.Adds catalog (placeholderOf "local.total") Bills.doubled := by
    refine ⟨free, ?_, ?_, ?_, .of_mem (List.mem_singleton.mpr rfl) (.refl _)⟩
    · rintro address (rfl | refers)
      · decide +kernel
      · exact spares_of_reachesOnly 2 (by decide +kernel) (by decide +kernel) refers
    · intro x reaches aligned
      rcases Bills.reaches_doubled reaches with rfl | rfl
      · cases aligned
      · cases aligned
    · intro x reaches missing
      exact (Bills.reaches_doubled reaches).resolve_left fun same => by
        rw [same] at missing
        cases missing
  obtain ⟨larger, again⟩ := (build_extended handed rfl Bills.formed_declared
    Bills.known_declared built (.inl unfiltered) answers adds ⟨made, typed⟩ added).1 registered
  exact ⟨handed, catalog, e, extended, larger, built, answers, adds, added, again⟩

namespace Shipments

/-- Whether a reference is answered by the catalog of a builder, with a concept that a new one can
be bound to, and the builder with the new concept does not build. -/
def Refuses (b : Builder) (reference : String) (c : Concept) : Prop :=
  Settles b.build
    (fun catalog => c.address ∉ catalog.concepts.keys ∧ Settles (catalog.concept reference)
      (fun e => Settles (c.rebind fun _ => .ok e) (fun _ => True) fun _ => False) fun _ => False)
    (fun _ => False) ∧
  Settles (b.addConcept c false)
    (fun extended => Settles extended.build (fun _ => False) fun _ => True) fun _ => False

instance {b : Builder} {reference : String} {c : Concept} :
    Decidable (Refuses b reference c) :=
  inferInstanceAs (Decidable (_ ∧ _))

def refer (name : String) : Concept := Builder.placeholderOf name

def sum (name : String) (a b : Expr) : Concept :=
  .derive name .property (.call ⟨.add, [a, b], .unknown, .property⟩)

def next (name reference : String) : Concept :=
  sum name (.concept (refer reference)) (.literal (.integer 1))

/-- A builder in which the references are asked for before the concepts are declared. -/
def declaring (reference : String) (cs : List Concept) : Builder :=
  (Builder.fresh false true).performAll
    (.lookup reference :: cs.map fun c => .addConcept c false)

def shipped : Concept := .key "shipped" .date

def store : Concept := .key "store" .integer

/-- The stores of two selects, as one output. -/
def anyStore : Concept :=
  let item : AlignItem := ⟨"any_store", [refer "local.store"]⟩
  item.mergeConcept (.twice (refer "local.store") [item])

def gate : Concept := .key "gate" .integer

def length (c : Concept) : Call := ⟨.length, [.concept c], .integer, .property⟩

/-- A reference to the gate is hidden behind the gate itself, as conditions read an address once. -/
def guarded : Concept :=
  .derive "leg" .property (.filter store (.combine
    (.compare (.concept gate) (.literal (.integer 1)) .eq)
    (.compare (.call (length (refer "local.gate"))) (.literal (.integer 0)) .gt) .and))

/-- A leg that is aligned by a reference, which has no type. The type of the store comes first. -/
def untyped : Concept :=
  let item : AlignItem := ⟨"leg", [refer "local.leg"]⟩
  item.mergeConcept (.twice store [⟨"any_store", [store]⟩, item])

/-- A stretch that takes the length of a leg. -/
def measured : Concept :=
  .derive "stretch" .property (.call (length (refer "local.leg")))

/-- A stretch over a leg, and a pier three references away from the gate. -/
def route (leg stretch : Concept) : Builder :=
  declaring "route" [gate, leg, stretch, next "dock" "local.gate", next "pier" "local.dock",
    sum "route" (.concept (refer "local.stretch")) (.concept (refer "local.pier"))]

end Shipments

/-- A month is derived after the concepts have been bound. The selects that a concept is aligned
from are not bound at all. A leg of a route is bound again in what is over the route, which brings
up a call on a reference that was hidden, or on a type that was unknown, be it declared or aligned
so. -/
theorem Builder.build_extended_fails :
    Shipments.Refuses (Shipments.declaring "shipped.month" [Shipments.shipped]) "shipped.month"
        (Shipments.next "following" "shipped.month") ∧
      Shipments.Refuses (Shipments.declaring "store" [Shipments.store]) "store"
        Shipments.anyStore ∧
      Shipments.Refuses
        (Shipments.route Shipments.guarded (Shipments.next "stretch" "local.leg")) "route"
        (Shipments.next "tour" "local.route") ∧
      Shipments.Refuses
        (Shipments.route (Shipments.sum "leg" (.concept Shipments.store) (.literal (.integer 1)))
          Shipments.measured) "route" (Shipments.next "tour" "local.route") ∧
      Shipments.Refuses (Shipments.route Shipments.untyped Shipments.measured) "route"
        (Shipments.next "tour" "local.route") := by
  decide +kernel

end SemanticQuery
