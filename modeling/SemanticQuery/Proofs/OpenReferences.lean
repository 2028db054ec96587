import Mathlib.Data.List.TakeWhile
import SemanticQuery.Proofs.Assembly
import SemanticQuery.Proofs.Binding

/-!
The references that a builder lists as undefined. Whatever was declared and looked up before, these
are the addresses for which a placeholder was handed out and under which nothing is declared. An
address is looked up in the default namespace as well, so one that is listed is found nevertheless
once a concept of that longer address is declared.
-/

namespace SemanticQuery

theorem NameMap.get?_erase {m : NameMap α} {name other : String} :
    (m.erase name).get? other = if other = name then none else m.get? other := by
  split
  · next same =>
    subst same
    simp [get?_eq_none_iff, keys, erase]
  · next distinct =>
    simp only [get?, erase, List.find?_filter]
    congr 2
    funext entry
    by_cases same : entry.1 = other
    · simp [same, distinct]
    · simp [same]

theorem NameMap.mem_keys_erase {m : NameMap α} {name other : String} :
    other ∈ (m.erase name).keys ↔ other ∈ m.keys ∧ other ≠ name := by
  simp only [keys, erase, List.mem_map, List.mem_filter, bne_iff_ne]
  constructor
  · rintro ⟨entry, ⟨member, kept⟩, rfl⟩
    exact ⟨⟨entry, member, rfl⟩, kept⟩
  · rintro ⟨⟨entry, member, rfl⟩, kept⟩
    exact ⟨entry, ⟨member, kept⟩, rfl⟩

section Qualify

variable {known : String → Bool} {reference : String}

/-- A reference that is not found has a namespace in its address. -/
theorem dot_mem_qualify (missing : known (qualify known reference) = false) :
    '.' ∈ (qualify known reference).toList := by
  unfold qualify at missing ⊢
  dsimp only at missing ⊢
  split
  · next found =>
    rw [if_pos found, found] at missing
    cases missing
  · split
    · simp
    · next dotted =>
      rw [Bool.or_eq_true, not_or] at dotted
      simpa using dotted.2

/-- An address that is not declared is looked for in the default namespace. -/
theorem qualify_of_dot (missing : known reference = false) (dotted : '.' ∈ reference.toList) :
    qualify known reference =
      if known (defaultNamespace ++ "." ++ reference) then defaultNamespace ++ "." ++ reference
      else reference := by
  simp [qualify, missing, dotted]

end Qualify

namespace Builder

/-- A placeholder for an address with a namespace has that address. -/
theorem address_placeholderOf {address : String} (dotted : '.' ∈ address.toList) :
    (placeholderOf address).address = address := by
  unfold placeholderOf
  dsimp only
  cases rest : address.toList.dropWhile (· != '.') with
  | nil =>
    have none := List.dropWhile_eq_nil_iff.mp rest '.' dotted
    simp at none
  | cons first name =>
    have mark : first = '.' := by
      have stops := List.head?_dropWhile_not (· != '.') address.toList
      rw [rest] at stops
      simpa using stops
    subst mark
    have whole : address.toList.takeWhile (· != '.') ++ '.' :: name = address.toList := by
      rw [← rest, List.takeWhile_append_dropWhile]
    apply String.toList_inj.mp
    simpa [Concept.address, Concept.placeholder] using whole

/-- A builder in which nothing is declared. -/
def fresh (failOnMissing deriveDateParts : Bool) : Builder := { failOnMissing, deriveDateParts }

/-- A call on a builder while a catalog is assembled. -/
inductive Action where
  | addConcept (c : Concept) (allowDuplicate : Bool)
  | addDatasource (d : Datasource)
  | lookup (reference : String)

/-- The builder after an action. One that fails changes nothing. -/
def perform (b : Builder) : Action → Builder
  | .addConcept c allowDuplicate => (b.addConcept c allowDuplicate).toOption.getD b
  | .addDatasource d => (b.addDatasource d).toOption.getD b
  | .lookup reference => ((b.lookup reference).toOption.map (·.2)).getD b

theorem perform_lookup {b next : Builder} {reference : String} {answer : Lookup}
    (answered : b.lookup reference = .ok (answer, next)) :
    b.perform (.lookup reference) = next := by
  rw [perform, answered]
  rfl

def performAll (b : Builder) (actions : List Action) : Builder := actions.foldl perform b

/-- Whether one of the actions is a lookup that is answered by a placeholder of the address. -/
def HandsOut (b : Builder) : List Action → String → Prop
  | [], _ => False
  | action :: rest, address =>
    (∃ reference p next, action = .lookup reference ∧
      b.lookup reference = .ok (.undefined p, next) ∧ p.address = address) ∨
    (b.perform action).HandsOut rest address

/-- The ways in which a reference is answered. -/
theorem lookup_cases (b : Builder) (reference : String) {address : String}
    (named : SemanticQuery.qualify b.concepts.contains reference = address) :
    (∃ c, b.concepts.get? address = some c ∧ b.lookup reference = .ok (.defined c, b)) ∨
      b.concepts.get? address = none ∧
        ((b.failOnMissing = true ∧ ∃ e, b.lookup reference = .error e) ∨
          b.failOnMissing = false ∧
            ((∃ p, b.pending.get? address = some p ∧
              b.lookup reference = .ok (.undefined p, b)) ∨
            b.pending.get? address = none ∧
              b.lookup reference = .ok (.undefined (placeholderOf address),
                { b with pending := b.pending.insert address (placeholderOf address) }))) := by
  subst named
  unfold lookup
  dsimp only
  cases b.concepts.get? (SemanticQuery.qualify b.concepts.contains reference) with
  | some c => exact .inl ⟨c, rfl, rfl⟩
  | none =>
    refine .inr ⟨rfl, ?_⟩
    cases b.failOnMissing with
    | true => exact .inl ⟨rfl, _, rfl⟩
    | false =>
      refine .inr ⟨rfl, ?_⟩
      cases b.pending.get? (SemanticQuery.qualify b.concepts.contains reference) with
      | some p => exact .inl ⟨p, rfl, rfl⟩
      | none => exact .inr ⟨rfl, rfl⟩

/-- What a builder has open, given the addresses of the placeholders that it has handed out. -/
structure Tracks (b : Builder) (handedOut : String → Prop) : Prop where
  listed : ∀ address, address ∈ b.undefined ↔ handedOut address ∧ address ∉ b.concepts.keys
  held : ∀ address p, b.pending.get? address = some p → p = placeholderOf address
  dotted : ∀ address ∈ b.undefined, '.' ∈ address.toList
  lenient : ∀ address ∈ b.undefined, b.failOnMissing = false

section Step

variable {b next : Builder} {handedOut : String → Prop}

theorem tracks_fresh (failOnMissing deriveDateParts : Bool) :
    (fresh failOnMissing deriveDateParts).Tracks fun _ => False := by
  refine ⟨fun address => ?_, fun address p held => ?_, fun address listed => ?_,
    fun address listed => ?_⟩
  · exact iff_of_false List.not_mem_nil fun both => both.1
  · cases held
  · cases listed
  · cases listed

theorem Tracks.congr (tracks : b.Tracks handedOut) {others : String → Prop}
    (same : ∀ address, handedOut address ↔ others address) : b.Tracks others :=
  ⟨fun address => (tracks.listed address).trans (and_congr_left' (same address)), tracks.held,
    tracks.dotted, tracks.lenient⟩

theorem pending_addConcept {c : Concept} {allowDuplicate : Bool}
    (added : b.addConcept c allowDuplicate = .ok next) :
    next.pending = b.pending.erase c.address ∧ next.failOnMissing = b.failOnMissing := by
  unfold addConcept at added
  dsimp only at added
  split at added
  · cases added
  · cases added
    exact ⟨rfl, rfl⟩

/-- A declaration settles the references to its address. -/
theorem Tracks.addConcept (tracks : b.Tracks handedOut) {c : Concept} {allowDuplicate : Bool}
    (added : b.addConcept c allowDuplicate = .ok next) : next.Tracks handedOut := by
  obtain ⟨pending, lenient⟩ := pending_addConcept added
  have still (address : String) :
      address ∈ next.undefined ↔ address ∈ b.undefined ∧ address ≠ c.address := by
    rw [undefined, pending, NameMap.mem_keys_erase, undefined]
  refine ⟨fun address => ?_, fun address p held => ?_, fun address listed => ?_,
    fun address listed => ?_⟩
  · rw [still, tracks.listed, concepts_addConcept added, NameMap.mem_keys_insert, not_or, and_assoc,
      and_comm (a := address ∉ _)]
  · rw [pending, NameMap.get?_erase] at held
    split at held
    · cases held
    · exact tracks.held address p held
  · exact tracks.dotted address ((still address).mp listed).1
  · rw [lenient]
    exact tracks.lenient address ((still address).mp listed).1

theorem Tracks.addColumn (tracks : b.Tracks handedOut) {column : Column}
    (added : b.addColumn column = .ok next) : next.Tracks handedOut := by
  unfold Builder.addColumn at added
  split at added
  · cases added
    exact tracks
  · exact tracks.addConcept added

theorem Tracks.addDatasource (tracks : b.Tracks handedOut) {d : Datasource}
    (added : b.addDatasource d = .ok next) : next.Tracks handedOut := by
  obtain ⟨declared, columns, done⟩ := bind_eq_ok.mp added
  cases done
  have kept : declared.Tracks handedOut :=
    foldlM_keeps (Tracks · handedOut) (fun _ _ _ _ held step => held.addColumn step) tracks columns
  exact ⟨kept.listed, kept.held, kept.dotted, kept.lenient⟩

/-- Columns are declared only under free addresses, so that a datasource is never refused. -/
theorem exists_addDatasource (b : Builder) (d : Datasource) :
    ∃ next, b.addDatasource d = .ok next := by
  have column (b : Builder) (column : Column) : ∃ next, b.addColumn column = .ok next := by
    unfold addColumn
    split
    · exact ⟨b, rfl⟩
    · next free =>
      rw [Bool.or_eq_true, not_or, NameMap.contains_iff, ← NameMap.get?_eq_none_iff] at free
      unfold addConcept
      rw [free.1]
      exact ⟨_, rfl⟩
  have columns (columns : List Column) (b : Builder) :
      ∃ next, columns.foldlM addColumn b = .ok next := by
    induction columns generalizing b with
    | nil => exact ⟨b, rfl⟩
    | cons first rest ih =>
      obtain ⟨middle, added⟩ := column b first
      obtain ⟨next, others⟩ := ih middle
      exact ⟨next, by rw [List.foldlM_cons, added]; exact others⟩
  obtain ⟨next, declared⟩ := columns d.columns b
  exact ⟨_, by rw [addDatasource, declared]; rfl⟩

/-- An address is listed once a placeholder is kept for it. -/
theorem Tracks.keep (tracks : b.Tracks handedOut) {asked : String}
    (absent : asked ∉ b.concepts.keys) (dotted : '.' ∈ asked.toList)
    (lenient : b.failOnMissing = false) :
    Tracks { b with pending := b.pending.insert asked (placeholderOf asked) }
      fun address => handedOut address ∨ address = asked := by
  have listed (address : String) :
      address ∈ (b.pending.insert asked (placeholderOf asked)).keys ↔
        address = asked ∨ address ∈ b.undefined :=
    NameMap.mem_keys_insert
  refine ⟨fun address => ?_, fun address p held => ?_, fun address member => ?_,
    fun address member => lenient⟩
  · refine (listed address).trans ?_
    rw [tracks.listed]
    constructor
    · rintro (rfl | ⟨before, free⟩)
      · exact ⟨.inr rfl, absent⟩
      · exact ⟨.inl before, free⟩
    · rintro ⟨before | rfl, free⟩
      · exact .inr ⟨before, free⟩
      · exact .inl rfl
  · have held : (b.pending.insert asked (placeholderOf asked)).get? address = some p := held
    rw [NameMap.get?_insert] at held
    split at held
    · next same =>
      cases held
      rw [same]
    · exact tracks.held address p held
  · rcases (listed address).mp member with rfl | before
    · exact dotted
    · exact tracks.dotted address before

/-- A placeholder that is handed out has the address of the reference, which is listed from then
on. -/
theorem Tracks.lookup (tracks : b.Tracks handedOut) (reference : String) :
    (b.perform (.lookup reference)).Tracks fun address => handedOut address ∨
      ∃ p next, b.lookup reference = .ok (.undefined p, next) ∧ p.address = address := by
  generalize named : SemanticQuery.qualify b.concepts.contains reference = asked
  have missed (absent : b.concepts.get? asked = none) : '.' ∈ asked.toList := by
    rw [← named]
    refine dot_mem_qualify (Bool.eq_false_iff.mpr fun found => ?_)
    rw [named, NameMap.contains_iff] at found
    exact NameMap.get?_eq_none_iff.mp absent found
  rcases b.lookup_cases reference named with ⟨c, _, answer⟩ |
    ⟨absent, ⟨_, e, answer⟩ | ⟨lenient, ⟨p, remembered, answer⟩ | ⟨new, answer⟩⟩⟩
  · rw [perform_lookup answer]
    refine tracks.congr fun address => (or_iff_left ?_).symm
    rintro ⟨p, next, same, _⟩
    cases answer.symm.trans same
  · have unchanged : b.perform (.lookup reference) = b := by
      rw [perform, answer]
      rfl
    rw [unchanged]
    refine tracks.congr fun address => (or_iff_left ?_).symm
    rintro ⟨p, next, same, _⟩
    cases answer.symm.trans same
  · rw [perform_lookup answer]
    refine tracks.congr fun address => (or_iff_left_of_imp ?_).symm
    rintro ⟨_, _, same, rfl⟩
    cases answer.symm.trans same
    rw [tracks.held asked p remembered, address_placeholderOf (missed absent)]
    exact ((tracks.listed asked).mp (NameMap.mem_keys_of_get? remembered)).1
  · rw [perform_lookup answer]
    have handed (address : String) : (∃ p next, b.lookup reference = .ok (.undefined p, next) ∧
        p.address = address) ↔ address = asked := by
      constructor
      · rintro ⟨_, _, same, rfl⟩
        cases answer.symm.trans same
        exact address_placeholderOf (missed absent)
      · rintro rfl
        exact ⟨_, _, answer, address_placeholderOf (missed absent)⟩
    have kept := tracks.keep (NameMap.get?_eq_none_iff.mp absent) (missed absent) lenient
    exact kept.congr fun address => or_congr_right (handed address).symm

end Step

/-- What is listed after a run was handed out before it or by one of its lookups. -/
theorem Tracks.performAll {b : Builder} {handedOut : String → Prop} (tracks : b.Tracks handedOut)
    (actions : List Action) :
    (b.performAll actions).Tracks fun address =>
      handedOut address ∨ b.HandsOut actions address := by
  induction actions generalizing b handedOut with
  | nil => exact tracks.congr fun address => (or_iff_left id).symm
  | cons action rest ih =>
    have unasked (notLookup : ∀ reference, action ≠ .lookup reference) (address : String) :
        handedOut address ∨ (b.perform action).HandsOut rest address ↔
          handedOut address ∨ b.HandsOut (action :: rest) address := by
      refine or_congr_right (or_iff_right ?_).symm
      rintro ⟨reference, _, _, same, _⟩
      exact notLookup reference same
    cases action with
    | addConcept c allowDuplicate =>
      refine (ih ?_).congr (unasked (by rintro _ ⟨⟩))
      cases added : b.addConcept c allowDuplicate with
      | error e =>
        rw [perform, added]
        exact tracks
      | ok next =>
        rw [perform, added]
        exact tracks.addConcept added
    | addDatasource d =>
      refine (ih ?_).congr (unasked (by rintro _ ⟨⟩))
      obtain ⟨next, added⟩ := b.exists_addDatasource d
      rw [perform, added]
      exact tracks.addDatasource added
    | lookup reference =>
      refine (ih (tracks.lookup reference)).congr fun address => ?_
      rw [or_assoc]
      refine or_congr_right (or_congr_left ⟨?_, ?_⟩)
      · rintro ⟨p, next, answer⟩
        exact ⟨reference, p, next, rfl, answer⟩
      · rintro ⟨_, p, next, ⟨⟩, answer⟩
        exact ⟨p, next, answer⟩

/-- After any actions a fresh builder lists the addresses of the placeholders that it has handed out
and under which no concept is declared. A listed address is still missed, unless a concept is
declared under that address in the default namespace. -/
theorem undefined_exact {failOnMissing deriveDateParts : Bool} {actions : List Action} {b : Builder}
    (run : (fresh failOnMissing deriveDateParts).performAll actions = b) (address : String) :
    (address ∈ b.undefined ↔ (fresh failOnMissing deriveDateParts).HandsOut actions address ∧
      address ∉ b.concepts.keys) ∧
      (address ∈ b.undefined →
        b.concepts.get? (defaultNamespace ++ "." ++ address) = none ∧
          b.lookup address = .ok (.undefined (placeholderOf address), b) ∨
        ∃ c, b.concepts.get? (defaultNamespace ++ "." ++ address) = some c ∧
          b.lookup address = .ok (.defined c, b)) := by
  have tracks : b.Tracks ((fresh failOnMissing deriveDateParts).HandsOut actions) := by
    rw [← run]
    exact ((tracks_fresh failOnMissing deriveDateParts).performAll actions).congr fun address =>
      or_iff_right id
  refine ⟨tracks.listed address, fun listed => ?_⟩
  have free := ((tracks.listed address).mp listed).2
  have unknown : b.concepts.contains address = false :=
    Bool.eq_false_iff.mpr fun found => free (NameMap.contains_iff.mp found)
  have named := qualify_of_dot unknown (tracks.dotted address listed)
  by_cases longer : b.concepts.contains (defaultNamespace ++ "." ++ address) = true
  · rw [if_pos longer] at named
    obtain ⟨c, held⟩ := NameMap.exists_get?_of_mem_keys (NameMap.contains_iff.mp longer)
    rcases b.lookup_cases address named with ⟨found, same, answer⟩ | ⟨absent, _⟩
    · cases held.symm.trans same
      exact .inr ⟨c, held, answer⟩
    · cases held.symm.trans absent
  · rw [if_neg longer] at named
    have absent : b.concepts.get? (defaultNamespace ++ "." ++ address) = none :=
      NameMap.get?_eq_none_iff.mpr fun member => longer (NameMap.contains_iff.mpr member)
    refine .inl ⟨absent, ?_⟩
    rcases b.lookup_cases address named with ⟨c, held, _⟩ |
      ⟨_, ⟨strict, _⟩ | ⟨_, ⟨p, remembered, answer⟩ | ⟨new, _⟩⟩⟩
    · exact absurd (NameMap.mem_keys_of_get? held) free
    · cases strict.symm.trans (tracks.lenient address listed)
    · rw [answer, tracks.held address p remembered]
    · exact absurd listed (NameMap.get?_eq_none_iff.mp new)

end Builder

namespace Stores

def city : Concept := .key "store.city" .string

/-- The city is referred to by its name before it is declared, and the manager is never declared. -/
def actions : List Builder.Action :=
  [.lookup "store.city", .lookup "manager", .addConcept city false]

def builder : Builder := (Builder.fresh false true).performAll actions

end Stores

theorem Builder.undefined_exact_manager :
    "local.manager" ∈ Stores.builder.undefined ∧
      Stores.builder.lookup "local.manager" =
        .ok (.undefined (Builder.placeholderOf "local.manager"), Stores.builder) := by
  have listed : "local.manager" ∈ Stores.builder.undefined := by decide +kernel
  have nowhere : (Stores.builder.concepts.get? "local.local.manager").isNone = true := by
    decide +kernel
  have run : (Builder.fresh false true).performAll Stores.actions = Stores.builder := rfl
  rcases (Builder.undefined_exact run "local.manager").2 listed with ⟨_, missed⟩ | ⟨c, held, _⟩
  · exact ⟨listed, missed⟩
  · rw [Option.isNone_iff_eq_none] at nowhere
    cases nowhere.symm.trans held

/-- The placeholder has the namespace `store`, and the city is declared in the default namespace. -/
theorem Builder.undefined_found :
    "store.city" ∈ Stores.builder.undefined ∧
      Stores.builder.lookup "store.city" = .ok (.defined Stores.city, Stores.builder) := by
  exact ⟨by decide +kernel, rfl⟩

end SemanticQuery
