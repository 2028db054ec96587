import SemanticQuery.Proofs.Assembly
import SemanticQuery.Proofs.Binding
import SemanticQuery.Proofs.WrittenAlike

/-!
Concepts that are declared before what they are derived from. Once everything is declared, such a
concept is bound to what it would have been if it had been declared last, save that a purpose that
was taken from the references is kept, and so is a grain in which none of them is left.
-/

namespace SemanticQuery

namespace Concept

/-- The concepts that the derivation is grouped by. -/
def groups (c : Concept) : List Concept := (c.lineage.map Lineage.groups).getD []

theorem groupBy_folded (f : Concept → Parts β → β) (c : Concept) :
    ((c.folded f).lineage ()).groupBy = c.groups.map (·.paired f) := by
  unfold folded groups
  cases c.lineage with
  | none => rfl
  | some lineage =>
    cases lineage with
    | aggregate a => rfl
    | call _ | window _ | filter _ _ | multiSelect _ => rfl

theorem hasGroupBy_eq (c : Concept) : c.hasGroupBy = !c.groups.isEmpty := by
  unfold hasGroupBy groups
  cases c.lineage with
  | none => rfl
  | some lineage => cases lineage <;> rfl

/-- What the grain of a declaration is made of. -/
def basis (c : Concept) : List Concept :=
  match c.purpose with
  | .key => [c.withGrain ∅]
  | .property =>
    if c.keys.isEmpty then c.reads.flatMap (·.graded.settled) else c.keys.map (·.withDefaultGrain)
  | .metric => c.groups.map (·.withDefaultGrain)
  | .constant | .auto => []

theorem components_declaredGrain {c : Concept} (bare : c.grain = ∅) :
    c.declaredGrain.components = Grain.canonical (unique c.basis) := by
  unfold declaredGrain defaultGrain basis
  rw [graded_eq, Graded.ofParts]
  cases purpose : c.purpose with
  | key =>
    dsimp only
    simp [Grain.canonical, unique, Names.uniqueOn, Names.uniqueFrom, purpose]
  | property =>
    dsimp only
    split
    · rw [gradedReads_folded, List.flatMap_map]
      rfl
    · rw [folded, List.map_map]
      rfl
  | metric =>
    dsimp only
    rw [hasGroupBy_eq, groupBy_folded, List.map_map]
    cases c.groups <;> rfl
  | constant => rfl
  | auto =>
    dsimp only
    rw [bare]
    rfl

theorem canonical_basis_of_key {c : Concept} (key : c.purpose = .key) :
    Grain.canonical (unique c.basis) = [c.withGrain ∅] := by
  simp [basis, Grain.canonical, unique, Names.uniqueOn, Names.uniqueFrom, key]

theorem basis_of_keys {c : Concept} (property : c.purpose = .property) (owned : c.keys ≠ []) :
    c.basis = c.keys.map (·.withDefaultGrain) := by
  simp [basis, property, owned]

theorem basis_of_metric {c : Concept} (metric : c.purpose = .metric) :
    c.basis = c.groups.map (·.withDefaultGrain) := by
  simp [basis, metric]

/-- The addresses of a declared grain depend on what it is made of. -/
theorem addresses_declaredGrain {c d : Concept} (bare : c.grain = ∅) (other : d.grain = ∅)
    (named : c.address = d.address) (purpose : c.purpose = d.purpose) (keys : c.keys = d.keys)
    (reads : c.reads = d.reads) (groups : c.groups = d.groups) :
    addresses c.declaredGrain.components = addresses d.declaredGrain.components := by
  rw [components_declaredGrain bare, components_declaredGrain other]
  unfold basis
  rw [← purpose, ← keys, ← reads, ← groups]
  cases kind : c.purpose with
  | key =>
    have own : d.purpose = .key := purpose.symm.trans kind
    simp [Grain.canonical, unique, Names.uniqueOn, Names.uniqueFrom, kind, own, addresses, named]
  | property | metric | constant | auto => rfl

/-- References are not left out of a canonical grain. -/
theorem any_isPlaceholder_canonical {ps : List Concept} (some : ps ≠ [])
    (references : ∀ p ∈ ps, ∃ ns name, p = .placeholder ns name) :
    (Grain.canonical (unique (ps.map (·.withDefaultGrain)))).any (·.isPlaceholder) = true := by
  obtain ⟨p, member⟩ := List.exists_mem_of_ne_nil ps some
  obtain ⟨x, kept, _⟩ : ∃ x ∈ unique (ps.map (·.withDefaultGrain)),
      x.address = p.withDefaultGrain.address :=
    Names.exists_mem_uniqueOn (List.mem_map_of_mem member)
  obtain ⟨q, listed, rfl⟩ := List.mem_map.mp (mem_of_mem_unique kept)
  obtain ⟨ns, name, rfl⟩ := references q listed
  exact List.any_eq_true.mpr ⟨_, List.mem_filter.mpr ⟨kept, rfl⟩, rfl⟩

/-- A concept is complete if it is derived from complete ones. -/
theorem complete_of_operands {c : Concept} {lineage : Lineage} (derived : c.lineage = some lineage)
    (plain : c.derivation ≠ .multiSelect) (grain : c.grain.hasPlaceholders = false)
    (keys : ∀ x ∈ c.keys, x.Complete) (operands : ∀ x ∈ lineage.operands, x.Complete) :
    c.Complete := by
  have present : c.isPlaceholder = false := by simp [isPlaceholder, derived]
  have mentions : c.mentions = c.keys ++ lineage.operands := by
    rw [mentions_eq present, derived]
    rfl
  have parts : ∀ x ∈ c.mentions, x.Complete := by
    intro x member
    rw [mentions] at member
    exact (List.mem_append.mp member).elim (keys x) (operands x)
  refine ⟨hasPlaceholders_eq_false.mpr ⟨grain, present, fun x member => ?_⟩, ?_⟩
  · rcases List.mem_append.mp member with key | read
    · exact (keys x key).bound
    · exact (parts x (mem_mentions_of_mem_reads present plain read)).bound
  · intro x reaches
    rcases Relation.ReflTransGen.cases_head reaches with rfl | ⟨y, member, reaches⟩
    · exact plain
    · exact (parts y member).unaligned x reaches

theorem derivation_ne_multiSelect {c : Concept} {lineage : Lineage}
    (derived : c.lineage = some lineage) (plain : ∀ multi, lineage ≠ .multiSelect multi) :
    c.derivation ≠ .multiSelect := by
  intro aligned
  obtain ⟨multi, same⟩ := derivation_eq_multiSelect.mp aligned
  exact plain multi (Option.some.inj (derived.symm.trans same))

theorem rebind_eq_ok {resolve : Resolver} {c : Concept} {lineage : Option Lineage}
    {keys : List Concept} (present : c.isPlaceholder = false)
    (derivation : Lineage.rebindOption resolve c.lineage = .ok lineage)
    (owners : Concept.rebindAll resolve c.keys = .ok keys) :
    c.rebind resolve = .ok (c.rebuild lineage keys) := by
  obtain ⟨name, datatype, purpose, metadata, own, ns, old, grain⟩ := c
  rw [rebind, if_neg (Bool.eq_false_iff.mp present), derivation, owners]
  rfl

theorem datatype_rebuild (old : Concept) (lineage : Lineage) (keys : List Concept) :
    (old.rebuild (some lineage) keys).datatype =
      if old.datatype = .unknown then lineage.datatype else old.datatype := by
  obtain ⟨name, datatype, purpose, metadata, derivation, ns, owners, grain⟩ := old
  cases datatype <;> rfl

theorem isPlaceholder_derive (name : String) (purpose : Purpose) (lineage : Lineage) :
    (derive name purpose lineage).isPlaceholder = false := by
  simp [isPlaceholder, derive, withGrain]

theorem components_derive (name : String) (purpose : Purpose) (lineage : Lineage) :
    (derive name purpose lineage).grain.components =
      Grain.canonical (unique (derive name purpose lineage).basis) :=
  components_declaredGrain (c := (derive name purpose lineage).withGrain ∅) rfl

theorem purpose_derive_eq_iff {name : String} {purpose : Purpose} {forward inOrder : Lineage} :
    (derive name purpose forward).purpose = (derive name purpose inOrder).purpose ↔
      (purpose = .auto → forward.purpose = inOrder.purpose) := by
  unfold derive
  cases purpose <;> simp [withGrain]

theorem derivedKeys_of_alike {concepts : NameMap Concept} {forward inOrder : Lineage}
    (alike : forward.Alike concepts.Declares inOrder) (purpose : Purpose) :
    List.Forall₂ concepts.Declares (derivedKeys purpose forward) (derivedKeys purpose inOrder) := by
  cases alike with
  | window alike =>
    unfold derivedKeys
    dsimp only
    split
    · exact .cons alike.content .nil
    · exact .nil
  | call | filter | aggregate => exact .nil

/-- A concept that is derived from references, and the one that is derived in the same way from what
they stand for. -/
inductive Twins (concepts : NameMap Concept) : Concept → Concept → Prop
  | of (name : String) (purpose : Purpose) {forward inOrder : Lineage} :
      forward.Alike concepts.Declares inOrder →
      Twins concepts (derive name purpose forward) (derive name purpose inOrder)

/-- What becomes of the first of them. -/
structure Becomes (c d entry : Concept) : Prop where
  complete : entry.hasPlaceholders = false
  name : entry.name = d.name
  ns : entry.ns = d.ns
  datatype : entry.datatype = d.datatype
  purpose : entry.purpose = c.purpose
  kept : c.grain.hasPlaceholders = false → entry.grain = c.grain
  renewed : c.grain.hasPlaceholders = true → c.purpose = d.purpose →
    addresses entry.grain.components = addresses d.grain.components

namespace Twins

variable {concepts : NameMap Concept} {c d : Concept} (twins : Twins concepts c d)

include twins

theorem plain : c.derivation ≠ .multiSelect ∧ d.derivation ≠ .multiSelect := by
  obtain ⟨name, purpose, alike⟩ := twins
  constructor <;> refine derivation_ne_multiSelect rfl ?_ <;> cases alike <;> nofun

theorem address : c.address = d.address := by
  obtain ⟨name, purpose, alike⟩ := twins
  rfl

theorem components :
    c.grain.components = Grain.canonical (unique c.basis) ∧
      d.grain.components = Grain.canonical (unique d.basis) := by
  obtain ⟨name, purpose, alike⟩ := twins
  exact ⟨components_derive name purpose _, components_derive name purpose _⟩

theorem references : ∀ p ∈ c.reads, ∃ ns name, p = .placeholder ns name := by
  obtain ⟨name, purpose, alike⟩ := twins
  exact Lineage.reference_of_mem_reads alike

theorem groups : List.Forall₂ concepts.Declares c.groups d.groups := by
  obtain ⟨name, purpose, alike⟩ := twins
  exact Lineage.groups_of_alike alike

theorem keys (same : c.purpose = d.purpose) : List.Forall₂ concepts.Declares c.keys d.keys := by
  obtain @⟨name, purpose, forward, inOrder, alike⟩ := twins
  have keys := derivedKeys_of_alike alike (derive name purpose forward).purpose
  have others : derivedKeys (derive name purpose forward).purpose inOrder =
      (derive name purpose inOrder).keys :=
    congrArg (derivedKeys · inOrder) same
  rwa [others] at keys

/-- What is derived from declarations has nothing left open. -/
theorem complete : d.Complete := by
  have plain := twins.plain.2
  obtain @⟨name, purpose, forward, inOrder, alike⟩ := twins
  let d := derive name purpose inOrder
  have keys : ∀ x ∈ d.keys, x.Complete :=
    NameMap.Declares.complete_of_mem (derivedKeys_of_alike alike d.purpose)
  have operands : ∀ x ∈ inOrder.operands, x.Complete :=
    NameMap.Declares.complete_of_mem (Lineage.operands_of_alike alike)
  have ungraded : (d.withGrain ∅).Complete := complete_of_operands rfl plain rfl keys operands
  exact complete_of_operands rfl plain
    (hasPlaceholders_declaredGrain ungraded.bound) keys operands

end Twins

section Rebuild

variable {concepts : NameMap Concept} {forward inOrder : Lineage}

theorem becomes_rebuild (alike : forward.Alike concepts.Declares inOrder) (name : String)
    (purpose : Purpose) {bound : Lineage} (resembles : bound.Resembles inOrder) :
    Becomes (derive name purpose forward) (derive name purpose inOrder)
      ((derive name purpose forward).rebuild (some bound)
        (derivedKeys (derive name purpose forward).purpose inOrder)) := by
  let c := derive name purpose forward
  let keys := derivedKeys c.purpose inOrder
  let rebuilt := c.rebuild (some bound) keys
  have plain : rebuilt.derivation ≠ .multiSelect := derivation_ne_multiSelect rfl resembles.plain
  have complete : ∀ x ∈ keys, x.Complete :=
    NameMap.Declares.complete_of_mem (derivedKeys_of_alike alike c.purpose)
  have operands : ∀ x ∈ bound.operands, x.Complete := by
    rw [resembles.operands]
    exact NameMap.Declares.complete_of_mem (Lineage.operands_of_alike alike)
  have ungraded : (rebuilt.withGrain ∅).Complete :=
    complete_of_operands rfl plain rfl complete operands
  have kept (none : c.grain.hasPlaceholders = false) : rebuilt.grain = c.grain :=
    if_neg (Bool.eq_false_iff.mp none)
  have renewed (some : c.grain.hasPlaceholders = true) :
      rebuilt.grain = (rebuilt.withGrain ∅).declaredGrain :=
    if_pos some
  refine ⟨?_, rfl, rfl, ?_, rfl, kept, fun some same => ?_⟩
  · have grain : rebuilt.grain.hasPlaceholders = false := by
      cases left : c.grain.hasPlaceholders with
      | false => rw [kept left, left]
      | true =>
        rw [renewed left]
        exact hasPlaceholders_declaredGrain ungraded.bound
    exact (complete_of_operands rfl plain grain complete operands).bound
  · refine (datatype_rebuild c bound keys).trans ?_
    rw [resembles.datatype]
    rcases Lineage.datatype_of_alike alike with known | ⟨unknown, _⟩
    · exact (congrArg (fun own => if own = .unknown then _ else own) known).trans (ite_self _)
    · exact if_pos unknown
  · rw [renewed some]
    exact addresses_declaredGrain rfl rfl rfl same
      (congrArg (derivedKeys · inOrder) same) resembles.reads resembles.groups

end Rebuild

namespace Twins

variable {concepts : NameMap Concept} {c d : Concept} (twins : Twins concepts c d)

include twins

/-- If no reference is left in it, the concept reads nothing. -/
theorem reads_eq_nil (clean : c.hasPlaceholders = false) : c.reads = [] := by
  obtain ⟨_, _, parts⟩ := hasPlaceholders_eq_false.mp clean
  refine List.eq_nil_iff_forall_not_mem.mpr fun p read => ?_
  obtain ⟨ns, name, rfl⟩ := twins.references p read
  have bound := parts _ (List.mem_append_right _ read)
  rw [hasPlaceholders_of_isPlaceholder rfl] at bound
  cases bound

/-- A pass completes the concept. -/
theorem exists_becomes : ∃ entry, Builder.Passes concepts c entry ∧ Becomes c d entry := by
  cases seen : c.hasPlaceholders with
  | true =>
    obtain @⟨name, purpose, forward, inOrder, alike⟩ := twins
    obtain ⟨bound, done, resembles⟩ := Lineage.exists_rebind alike
    have derivation : Lineage.rebindOption concepts.resolve (some forward) = .ok (some bound) := by
      rw [Lineage.rebindOption, done]
      rfl
    have keys := NameMap.Declares.rebindAll
      (derivedKeys_of_alike alike (derive name purpose forward).purpose)
    have rebound := rebind_eq_ok (isPlaceholder_derive name purpose forward) derivation keys
    exact ⟨_, .inl ⟨seen, rebound⟩, becomes_rebuild alike name purpose resembles⟩
  | false =>
    -- A type that is not known would have come from a reference.
    have none := twins.reads_eq_nil seen
    have grain := (hasPlaceholders_eq_false.mp seen).1
    obtain ⟨name, purpose, alike⟩ := twins
    refine ⟨_, .inr ⟨seen, rfl⟩, seen, rfl, rfl, ?_, rfl, fun _ => rfl, fun left => ?_⟩
    · rcases Lineage.datatype_of_alike alike with known | ⟨_, reads⟩
      · exact known
      · exact absurd none reads
    · cases grain.symm.trans left

/-- A property without keys takes no grain from references. -/
theorem components_of_no_keys (property : c.purpose = .property) (none : c.keys = []) :
    c.grain.components = [] := by
  have basis : c.basis = [] := by
    unfold Concept.basis
    rw [property, none]
    refine List.flatMap_eq_nil_iff.mpr fun p read => ?_
    obtain ⟨ns, name, rfl⟩ := twins.references p read
    rfl
  rw [twins.components.1, basis]
  rfl

/-- Any other grain holds a reference, or is as it should be. -/
theorem grain_cases (same : c.purpose = d.purpose) (owned : d.purpose = .property → d.keys ≠ []) :
    c.grain.hasPlaceholders = true ∨
      addresses c.grain.components = addresses d.grain.components := by
  have keys := twins.keys same
  have groups := twins.groups
  rw [Grain.hasPlaceholders, twins.components.1, twins.components.2]
  cases kind : d.purpose with
  | key =>
    right
    rw [canonical_basis_of_key kind, canonical_basis_of_key (same.trans kind)]
    exact congrArg (fun own => [own]) twins.address
  | property =>
    left
    have some : c.keys ≠ [] := by
      intro none
      rw [none] at keys
      exact owned kind (List.forall₂_nil_left_iff.mp keys)
    rw [basis_of_keys (same.trans kind) some]
    exact any_isPlaceholder_canonical some (NameMap.Declares.reference_of_mem keys)
  | metric =>
    rw [basis_of_metric kind, basis_of_metric (same.trans kind)]
    by_cases none : c.groups = []
    · right
      rw [none] at groups
      rw [none, List.forall₂_nil_left_iff.mp groups]
    · left
      exact any_isPlaceholder_canonical none (NameMap.Declares.reference_of_mem groups)
  | constant | auto =>
    right
    unfold basis
    rw [kind, same.trans kind]

theorem agrees_iff {entry : Concept} (becomes : Becomes c d entry) :
    entry.agrees d = true ↔ c.purpose = d.purpose ∧
      (d.purpose = .property → d.keys = [] → d.grain.isAbstract = true) := by
  have parts : entry.agrees d = true ↔
      c.purpose = d.purpose ∧ entry.grain.same d.grain = true := by
    rw [agrees, becomes.name, becomes.ns, becomes.datatype, becomes.purpose]
    simp
  rw [parts, Grain.same, Names.same_iff]
  refine and_congr_right fun same => ?_
  by_cases bare : d.purpose = .property ∧ d.keys = []
  · obtain ⟨property, none⟩ := bare
    have keys := twins.keys same
    rw [none] at keys
    have empty : c.grain.components = [] :=
      twins.components_of_no_keys (same.trans property) (List.forall₂_nil_right_iff.mp keys)
    -- Nothing in this grain says that it is not final, so it is never computed again.
    have grain := becomes.kept (by rw [Grain.hasPlaceholders, empty, List.any_nil])
    rw [grain, empty, Grain.isAbstract, List.isEmpty_iff]
    simp [property, none, addresses, List.eq_nil_iff_forall_not_mem]
  · have owned (property : d.purpose = .property) (none : d.keys = []) : False :=
      bare ⟨property, none⟩
    have equal : addresses entry.grain.components = addresses d.grain.components := by
      cases left : c.grain.hasPlaceholders with
      | true => exact becomes.renewed left same
      | false =>
        rw [becomes.kept left]
        exact (twins.grain_cases same owned).resolve_left (Bool.eq_false_iff.mp left)
    rw [equal]
    exact iff_of_true (fun _ => Iff.rfl) fun property none => absurd none (owned property)

end Twins

end Concept

namespace DateParts

/-- The operators of the calendar parts take one argument, of the type that has the parts. -/
theorem accepts_operators (t : DataType) :
    ∀ operator ∈ operators t, operator.signature.accepts 1 = true ∧
      (operator.signature.inputs.allowed 0).all (·.contains t) = true := by
  cases t <;> decide

theorem fits_operators {c : Concept} {operator : Operator} (own : operator ∈ operators c.datatype) :
    Call.Fits operator [.concept c] := by
  obtain ⟨accepts, allowed⟩ := accepts_operators c.datatype operator own
  refine ⟨accepts, fun i argument listed => ?_⟩
  cases i with
  | zero =>
    cases listed
    unfold Call.misfit? Expr.checkedType?
    split
    · rfl
    · rfl
    · rfl
    · next types type _ listed known =>
      cases known
      rw [listed] at allowed
      exact if_pos allowed
  | succ i => simp at listed

theorem exists_parts (c : Concept) : ∃ parts, DateParts.parts c = .ok parts := by
  refine exists_mapM fun operator own => ?_
  have made := Call.of_eq_ok_iff.mpr ⟨fits_operators own, rfl⟩
  rw [part, made]
  exact ⟨_, rfl⟩

end DateParts

namespace NameMap

theorem get?_insertIfNew {m : NameMap α} {key name : String} {value other : α}
    (held : m.get? key = some value) : (m.insertIfNew name other).get? key = some value := by
  unfold insertIfNew
  split
  · exact held
  · next new =>
    have differs : key ≠ name := by
      rintro rfl
      exact new (contains_iff.mpr (mem_keys_of_get? held))
    rw [get?_insert, if_neg differs, held]

theorem get?_foldl_insertIfNew {m : NameMap Concept} {key : String} {c : Concept}
    (held : m.get? key = some c) (cs : List Concept) :
    (cs.foldl (fun m c => m.insertIfNew c.address c) m).get? key = some c := by
  induction cs generalizing m with
  | nil => exact held
  | cons first rest ih => exact ih (get?_insertIfNew held)

end NameMap

namespace Builder

variable {concepts next : NameMap Concept} {key : String} {c entry : Concept}

/-- Whether an entry under another key has references left in it. -/
def OthersOpen (concepts : NameMap Concept) (key : String) : Prop :=
  ∃ other x, other ≠ key ∧ concepts.get? other = some x ∧ x.hasPlaceholders = true

theorem Passes.unique {bound : Concept} (passes : Passes concepts c bound)
    (also : Passes concepts c entry) : bound = entry := by
  rcases passes with ⟨seen, done⟩ | ⟨clean, rfl⟩
  · rcases also with ⟨_, other⟩ | ⟨clean, _⟩
    · exact Except.ok.inj (done.symm.trans other)
    · cases seen.symm.trans clean
  · rcases also with ⟨seen, _⟩ | ⟨_, rfl⟩
    · cases clean.symm.trans seen
    · rfl

theorem get?_bindOnce (done : bindOnce concepts = .ok next) (held : concepts.get? key = some c)
    (passes : Passes concepts c entry) : next.get? key = some entry := by
  obtain ⟨keys, entries⟩ := (settles_bindOnce concepts).ok done
  obtain ⟨bound, made⟩ :=
    NameMap.exists_get?_of_mem_keys (keys ▸ NameMap.mem_keys_of_get? held)
  obtain ⟨old, found, also⟩ := entries key bound made
  cases held.symm.trans found
  rw [made, passes.unique also]

theorem OthersOpen.of_bindOnce (done : bindOnce concepts = .ok next)
    (others : OthersOpen next key) : OthersOpen concepts key := by
  obtain ⟨other, x, differs, made, seen⟩ := others
  obtain ⟨old, found, passes⟩ := ((settles_bindOnce concepts).ok done).2 other x made
  refine ⟨other, old, differs, found, ?_⟩
  rcases passes with ⟨before, _⟩ | ⟨clean, rfl⟩
  · exact before
  · exact seen

theorem othersOpen_of_get? (held : concepts.get? key = some c) (clean : c.hasPlaceholders = false)
    {other : String} {x : Concept} (found : concepts.get? other = some x)
    (seen : x.hasPlaceholders = true) : OthersOpen concepts key := by
  refine ⟨other, x, ?_, found, seen⟩
  rintro rfl
  cases held.symm.trans found
  cases clean.symm.trans seen

/-- The passes leave an entry alone in which nothing is open, and fail only for others. -/
theorem settles_bindWithin (passes : Nat) (held : concepts.get? key = some c)
    (clean : c.hasPlaceholders = false) :
    Settles (bindWithin passes concepts) (·.get? key = some c)
      fun _ => OthersOpen concepts key := by
  induction passes generalizing concepts with
  | zero =>
    rw [bindWithin]
    split
    · exact held
    · next left =>
      obtain ⟨⟨other, x⟩, member⟩ := List.exists_mem_of_ne_nil _ left
      obtain ⟨found, seen⟩ := mem_unbound.mp member
      exact othersOpen_of_get? held clean found seen
  | succ passes ih =>
    rw [bindWithin]
    split
    · exact held
    · cases done : bindOnce concepts with
      | error e =>
        obtain ⟨other, x, found, seen, _⟩ := (settles_bindOnce concepts).error done
        exact othersOpen_of_get? held clean found seen
      | ok next =>
        have kept := get?_bindOnce done held (.inr ⟨clean, rfl⟩)
        exact (ih kept).weaken (fun _ made => made) fun _ left => left.of_bindOnce done

/-- An entry that a pass completes is bound, unless another one fails. -/
theorem settles_bind (held : concepts.get? key = some c) (passes : Passes concepts c entry)
    (clean : entry.hasPlaceholders = false) :
    Settles (bind concepts) (·.get? key = some entry) fun _ => OthersOpen concepts key := by
  rcases passes with ⟨seen, bound⟩ | ⟨whole, rfl⟩
  · have left : unbound concepts ≠ [] := List.ne_nil_of_mem (mem_unbound.mpr ⟨held, seen⟩)
    -- The first pass completes the entry, and those after it leave it alone.
    rw [bind, bindWithin, if_neg (by simpa using left)]
    cases done : bindOnce concepts with
    | error e =>
      obtain ⟨other, x, found, unfinished, failed⟩ := (settles_bindOnce concepts).error done
      refine ⟨other, x, ?_, found, unfinished⟩
      rintro rfl
      cases held.symm.trans found
      cases bound.symm.trans failed
    | ok next =>
      have made := get?_bindOnce done held (.inl ⟨seen, bound⟩)
      exact (settles_bindWithin _ made clean).weaken (fun _ made => made)
        fun _ left => left.of_bindOnce done
  · exact settles_bindWithin _ held clean

theorem exists_addDateParts (concepts : NameMap Concept) :
    ∃ dated, addDateParts concepts = .ok dated ∧
      ∀ key c, concepts.get? key = some c → dated.get? key = some c := by
  obtain ⟨parts, made⟩ := exists_mapM (f := DateParts.parts)
    fun temporal (_ : temporal ∈ concepts.values.filter fun c =>
      c.datatype.isTemporal && c.metadata.source != .autoDerived) => DateParts.exists_parts temporal
  refine ⟨_, ?_, fun key c held => NameMap.get?_foldl_insertIfNew held parts.flatten⟩
  rw [addDateParts, made]
  rfl

/-- Whether a column has references left in it. -/
def ColumnsOpen (b : Builder) : Prop :=
  ∃ d ∈ b.datasources, ∃ column ∈ d.columns, column.concept.hasPlaceholders = true

theorem settles_bindColumn (concepts : NameMap Concept) (column : Column) :
    Settles (bindColumn concepts column) (fun _ => True)
      fun _ => column.concept.hasPlaceholders = true := by
  unfold bindColumn
  split
  · next seen =>
    cases column.concept.rebind concepts.resolve with
    | ok bound => trivial
    | error e => exact seen
  · trivial

/-- The columns of a datasource are bound, unless references are left in them. -/
theorem settles_bindColumns {b : Builder} {d : Datasource} (member : d ∈ b.datasources)
    (concepts : NameMap Concept) :
    Settles (bindColumns concepts d) (fun _ => True) fun _ => b.ColumnsOpen := by
  have each : ∀ column ∈ d.columns,
      Settles (bindColumn concepts column) (fun _ => True) fun _ => b.ColumnsOpen :=
    fun column listed => (settles_bindColumn concepts column).weaken (fun _ done => done)
      fun _ seen => ⟨d, member, column, listed, seen⟩
  exact (Settles.mapM each).bind fun _ _ => trivial

/-- Entries that are bound are in the catalog, unless references are left in the columns. -/
theorem settles_build_of_bind {b : Builder} {bound : NameMap Concept}
    (binding : bind b.concepts = .ok bound) :
    Settles b.build
      (fun catalog => ∀ key c, bound.get? key = some c → catalog.concepts.get? key = some c)
      fun _ => b.ColumnsOpen := by
  have close {concepts : NameMap Concept}
      (keeps : ∀ key c, bound.get? key = some c → concepts.get? key = some c) :
      Settles
        (do
          let datasources ← b.datasources.mapM (bindColumns concepts)
          return Catalog.of concepts datasources)
        (fun catalog => ∀ key c, bound.get? key = some c → catalog.concepts.get? key = some c)
        fun _ => b.ColumnsOpen :=
    (Settles.mapM fun d member => settles_bindColumns member concepts).bind fun _ _ => keeps
  rw [build, binding]
  change Settles (if b.deriveDateParts = true then _ else _) _ _
  split
  · obtain ⟨dated, done, kept⟩ := exists_addDateParts bound
    rw [done]
    exact close kept
  · exact close fun _ _ held => held

/-- An entry that a pass completes is in the catalog, unless references are left elsewhere. -/
theorem settles_build {b : Builder} (held : b.concepts.get? key = some c)
    (passes : Passes b.concepts c entry) (clean : entry.hasPlaceholders = false) :
    Settles b.build (·.concepts.get? key = some entry)
      fun _ => OthersOpen b.concepts key ∨ b.ColumnsOpen := by
  have bound := settles_bind held passes clean
  cases binding : bind b.concepts with
  | error e =>
    rw [build, binding]
    exact .inl (bound.error binding)
  | ok concepts =>
    exact (settles_build_of_bind binding).weaken
      (fun _ keeps => keeps key entry (bound.ok binding)) fun _ left => .inr left

/-- A concept that is declared over references is in the catalog, unless references are left
elsewhere. It is of the type that it has if it is declared over the declarations instead, and agrees
with that concept unless its purpose was left open and follows otherwise from the declarations, or
it is a property without keys that takes a grain from what it reads. -/
theorem build_forward {early late : Builder} {ordered : Catalog} {key name : String}
    {purpose : Purpose} {forward inOrder : Lineage}
    (alike : forward.Alike early.concepts.Declares inOrder)
    (first : early.concepts.get? key = some (Concept.derive name purpose forward))
    (last : late.concepts.get? key = some (Concept.derive name purpose inOrder))
    (built : late.build = .ok ordered) :
    Settles early.build
      (fun catalog => ∃ entry other, catalog.concepts.get? key = some entry ∧
        ordered.concepts.get? key = some other ∧ entry.hasPlaceholders = false ∧
        entry.datatype = other.datatype ∧
        (entry.agrees other = true ↔ (purpose = .auto → forward.purpose = inOrder.purpose) ∧
          (other.purpose = .property → other.keys = [] → other.grain.isAbstract = true)))
      fun _ => OthersOpen early.concepts key ∨ early.ColumnsOpen := by
  have twins := Concept.Twins.of name purpose alike
  obtain ⟨entry, passes, becomes⟩ := twins.exists_becomes
  have complete := twins.complete.bound
  have found := (settles_build last (.inr ⟨complete, rfl⟩) complete).ok built
  refine (settles_build first passes becomes.complete).weaken (fun catalog made => ?_)
    fun _ left => left
  refine ⟨entry, _, made, found, becomes.complete, becomes.datatype, ?_⟩
  rw [twins.agrees_iff becomes, Concept.purpose_derive_eq_iff]

end Builder

/-- Completeness can be checked by following what is mentioned. -/
theorem Concept.complete_of_reachesOnly {c : Concept} (steps : Nat)
    (bound : c.hasPlaceholders = false)
    (checked : c.reachesOnly (·.derivation != .multiSelect) steps = true) : c.Complete :=
  ⟨bound, fun _ reaches => by simpa using of_reachesOnly checked reaches⟩

/-- Calls are written alike for which no result type is declared. -/
theorem Call.Alike.undeclared {leaf : Concept → Concept → Prop} {f g : Call}
    (operator : f.operator = g.operator)
    (arguments : List.Forall₂ (Expr.Alike leaf) f.arguments g.arguments) (made : f.Made none)
    (other : g.Made none) : f.Alike leaf g :=
  .applied operator arguments (Option.some_ne_none _).symm made other

namespace Purchases

def product : Concept := .key "product" .integer

def amount : Concept := .property "amount" .float [product]

def orders : Concept := .metric "orders" .integer

def refer (name : String) : Concept := .placeholder defaultNamespace name

/-- The declarations with concepts that are derived from them. -/
def declaring (derived : List Concept) : Builder :=
  { concepts := .ofList ((derived ++ [amount, orders, product]).map fun c => (c.address, c)) }

theorem declares_refer {b : Builder} {name : String} {c : Concept}
    (found : b.concepts.resolve (refer name).address = .ok c) (bound : c.hasPlaceholders = false)
    (plain : c.reachesOnly (·.derivation != .multiSelect) 3 = true) :
    b.concepts.Declares (refer name) c :=
  ⟨⟨_, _, rfl⟩, found, Concept.complete_of_reachesOnly 3 bound plain⟩

def sum (c : Concept) (datatype : DataType) : Call := ⟨.sum, [.concept c], datatype, .metric⟩

/-- The amounts in total for each group. -/
def total (amount : Concept) (groups : List Concept) (datatype : DataType) : Concept :=
  .derive "total" .auto (.aggregate ⟨sum amount datatype, groups⟩)

def early : Builder := declaring [total (refer "amount") [refer "product"] .unknown]

def late : Builder := declaring [total amount [product] .float]

theorem sums_alike :
    (Lineage.aggregate ⟨sum (refer "amount") .unknown, [refer "product"]⟩).Alike
      early.concepts.Declares (.aggregate ⟨sum amount .float, [product]⟩) := by
  have owner : early.concepts.Declares (refer "product") product :=
    declares_refer rfl rfl (by decide +kernel)
  have read : early.concepts.Declares (refer "amount") amount :=
    declares_refer rfl (by decide +kernel) (by decide +kernel)
  have sums : (sum (refer "amount") .unknown).Alike early.concepts.Declares (sum amount .float) :=
    .undeclared rfl (.cons (.concept read) .nil) ⟨_, rfl, rfl⟩ ⟨_, rfl, rfl⟩
  exact .aggregate (.grouped sums (.cons owner .nil))

end Purchases

/-- Totals for each product may be declared first. -/
theorem Builder.build_forward_totals :
    (Purchases.early.concepts.get? "local.total").any (·.hasPlaceholders) = true ∧
      ∃ catalog ordered entry other, Purchases.early.build = .ok catalog ∧
        Purchases.late.build = .ok ordered ∧ catalog.concepts.get? "local.total" = some entry ∧
        ordered.concepts.get? "local.total" = some other ∧ entry.agrees other = true := by
  have builds : Settles Purchases.early.build (fun _ => True) fun _ => False := by decide +kernel
  have others : Settles Purchases.late.build
      (fun ordered => ∀ other ∈ ordered.concepts.get? "local.total", other.purpose = .metric)
      fun _ => False := by
    decide +kernel
  obtain ⟨catalog, done, _⟩ := builds.exists_ok
  obtain ⟨ordered, built, metric⟩ := others.exists_ok
  obtain ⟨entry, other, made, found, _, _, agrees⟩ :=
    (Builder.build_forward Purchases.sums_alike
      (rfl : Purchases.early.concepts.get? "local.total" = _) rfl built).ok done
  refine ⟨by decide +kernel, catalog, ordered, entry, other, done, built, made, found,
    agrees.mpr ⟨fun _ => rfl, fun property => ?_⟩⟩
  cases (metric other found).symm.trans property

namespace Purchases

def doubling (c : Concept) (datatype : DataType) (purpose : Purpose) : Call :=
  ⟨.multiply, [.concept c, .literal (.integer 2)], datatype, purpose⟩

theorem doubling_alike {b : Builder} {name : String} {c : Concept} {datatype : DataType}
    {purpose : Purpose} (declares : b.concepts.Declares (refer name) c)
    (made : (doubling c datatype purpose).Made none) :
    (doubling (refer name) .unknown .property).Alike b.concepts.Declares
      (doubling c datatype purpose) :=
  .undeclared rfl (.cons (.concept declares) (.cons (.literal _) .nil)) ⟨_, rfl, rfl⟩ made

def double (c : Concept) (datatype : DataType) : Concept :=
  .derive "double" .property (.call (doubling c datatype .property))

def twice (c : Concept) (datatype : DataType) (purpose : Purpose) : Concept :=
  .derive "twice" .auto (.call (doubling c datatype purpose))

/-- What becomes of a concept if it is declared over references, and if over declarations. -/
def Compares (early late : Builder) (key : String) (holds : Concept → Concept → Prop) : Prop :=
  Settles early.build
    (fun catalog => Settles late.build
      (fun ordered => ∃ entry ∈ catalog.concepts.get? key,
        ∃ other ∈ ordered.concepts.get? key, entry.agrees other = false ∧ holds entry other)
      fun _ => False)
    fun _ => False

instance {early late : Builder} {key : String} {holds : Concept → Concept → Prop}
    [∀ c d, Decidable (holds c d)] : Decidable (Compares early late key holds) :=
  inferInstanceAs (Decidable (Settles _ _ _))

def doubled : Builder := declaring [double (refer "amount") .unknown]

def repeated : Builder := declaring [twice (refer "orders") .unknown .property]

/-- Totals that are grouped by what is twice the amount too. -/
def grouped : Builder :=
  declaring [total (refer "amount") [refer "double", refer "product"] .unknown,
    double (refer "amount") .unknown]

end Purchases

/-- Twice the amount has no grain if it is declared before the amount. Twice the orders, which are a
metric, is a property if it is declared before the orders. Totals that are grouped by a concept with
references left in it have a grain that is too large. -/
theorem Builder.build_forward_differs :
    (Purchases.doubling (Purchases.refer "amount") .unknown .property).Alike
        Purchases.doubled.concepts.Declares
        (Purchases.doubling Purchases.amount .float .property) ∧
      Purchases.Compares Purchases.doubled
        (Purchases.declaring [Purchases.double Purchases.amount .float]) "local.double"
        (fun entry other => entry.grain.isAbstract = true ∧
          Concept.addresses other.grain.components = ["local.product"]) ∧
      (Purchases.doubling (Purchases.refer "orders") .unknown .property).Alike
        Purchases.repeated.concepts.Declares
        (Purchases.doubling Purchases.orders .integer .metric) ∧
      Purchases.Compares Purchases.repeated
        (Purchases.declaring [Purchases.twice Purchases.orders .integer .metric]) "local.twice"
        (fun entry other => entry.purpose = .property ∧ other.purpose = .metric) ∧
      Purchases.Compares Purchases.grouped
        (Purchases.declaring
          [Purchases.total Purchases.amount
              [Purchases.double Purchases.amount .float, Purchases.product] .float,
            Purchases.double Purchases.amount .float]) "local.total"
        fun entry other =>
          Concept.addresses entry.grain.components = ["local.double", "local.product"] ∧
            Concept.addresses other.grain.components = ["local.product"] := by
  have amount : Purchases.doubled.concepts.Declares (Purchases.refer "amount") Purchases.amount :=
    Purchases.declares_refer rfl (by decide +kernel) (by decide +kernel)
  have orders : Purchases.repeated.concepts.Declares (Purchases.refer "orders") Purchases.orders :=
    Purchases.declares_refer rfl rfl (by decide +kernel)
  exact ⟨Purchases.doubling_alike amount ⟨_, rfl, rfl⟩, by decide +kernel,
    Purchases.doubling_alike orders ⟨_, rfl, rfl⟩, by decide +kernel, by decide +kernel⟩

end SemanticQuery
