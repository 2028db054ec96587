import SemanticQuery.Proofs.Extensions

/-!
Concepts that are declared over references to each other. However long the chains of references are
and in whatever order the concepts are declared, each gets the type that it has if it is declared
after everything that it is derived from. Its grain comes out the same as well where this is made of
concepts that were not declared over references themselves.
-/

namespace SemanticQuery

/-- Where nothing is filtered, all that is written in a derivation is inside. -/
theorem Lineage.inner_of_alike {concepts : NameMap Concept} {forward inOrder : Lineage}
    (alike : forward.Alike concepts.Declares inOrder)
    (unfiltered : ∀ content condition, forward ≠ .filter content condition) :
    List.Forall₂ concepts.Declares forward.operands inOrder.inner := by
  cases alike with
  | filter => exact absurd rfl (unfiltered _ _)
  | call alike => exact operands_of_alike (.call alike)
  | window alike => exact operands_of_alike (.window alike)
  | aggregate alike => exact operands_of_alike (.aggregate alike)

theorem Lineage.groups_rebind {resolve : Resolver} {lineage bound : Lineage}
    (done : lineage.rebind resolve = .ok bound) :
    Concept.rebindAll resolve lineage.groups = .ok bound.groups := by
  have none : Concept.rebindAll resolve [] = .ok [] := by
    rw [Concept.rebindAll]
    rfl
  cases lineage with
  | aggregate a =>
    obtain ⟨call, groupBy⟩ := a
    rw [rebind] at done
    obtain ⟨made, rebound, same⟩ := bind_eq_ok.mp done
    cases same
    rw [Aggregate.rebind] at rebound
    obtain ⟨call, _, rebound⟩ := bind_eq_ok.mp rebound
    obtain ⟨groups, owners, same⟩ := bind_eq_ok.mp rebound
    cases same
    exact owners
  | call | window =>
    rw [rebind] at done
    obtain ⟨made, _, same⟩ := bind_eq_ok.mp done
    cases same
    exact none
  | filter content condition =>
    rw [rebind] at done
    obtain ⟨made, _, done⟩ := bind_eq_ok.mp done
    obtain ⟨test, _, same⟩ := bind_eq_ok.mp done
    cases same
    exact none
  | multiSelect multi =>
    rw [rebind] at done
    cases done
    exact none

/-- References stand for the same in all maps that resolve them alike. -/
theorem NameMap.Declares.transfer {early concepts : NameMap Concept} {ps cs : List Concept}
    (alike : ∀ p ∈ ps, early.resolve p.address = concepts.resolve p.address)
    (declares : List.Forall₂ concepts.Declares ps cs) : List.Forall₂ early.Declares ps cs := by
  refine ((List.forall₂_and_left ps cs).mpr ⟨alike, declares⟩).imp ?_
  rintro p x ⟨same, declares⟩
  exact ⟨declares.reference, same.trans declares.found, declares.complete⟩

namespace Concept

theorem mem_operands_of_mem_derivedKeys {purpose : Purpose} {lineage : Lineage} {x : Concept}
    (member : x ∈ derivedKeys purpose lineage) : x ∈ lineage.operands := by
  cases lineage with
  | window w =>
    unfold derivedKeys at member
    dsimp only at member
    split at member
    · rw [List.mem_singleton.mp member]
      exact List.mem_cons_self
    · cases member
  | call | filter | aggregate | multiSelect => cases member

theorem rebindAll_groups {resolve : Resolver} {c : Concept} {lineage : Option Lineage}
    (done : Lineage.rebindOption resolve c.lineage = .ok lineage) :
    Concept.rebindAll resolve c.groups = .ok ((lineage.map Lineage.groups).getD []) := by
  unfold groups
  cases former : c.lineage with
  | none =>
    rw [former, Lineage.rebindOption] at done
    cases done
    rw [Option.map_none, Option.getD_none, Concept.rebindAll]
    rfl
  | some old =>
    rw [former, Lineage.rebindOption] at done
    obtain ⟨bound, rebound, same⟩ := bind_eq_ok.mp done
    cases same
    exact Lineage.groups_rebind rebound

namespace Twins

variable {concepts early : NameMap Concept} {c d p made : Concept} (twins : Twins concepts c d)

include twins

theorem present : c.isPlaceholder = false := by
  obtain ⟨name, purpose, alike⟩ := twins
  exact isPlaceholder_derive name purpose _

theorem named : c.name = d.name ∧ c.ns = d.ns := by
  obtain ⟨name, purpose, alike⟩ := twins
  exact ⟨rfl, rfl⟩

/-- All that is reached from the first of them is the concept itself and references, each to a
concept that is inside the other. -/
theorem reaches_cases (unfiltered : c.derivation ≠ .filter) (reaches : c.Reaches p) :
    p = c ∨ ∃ x ∈ d.inner, concepts.Declares p x := by
  have present := twins.present
  obtain @⟨name, purpose, forward, inOrder, alike⟩ := twins
  rcases Relation.ReflTransGen.cases_head reaches with same | ⟨q, member, rest⟩
  · exact .inl same.symm
  · rw [mentions_eq present] at member
    have operand : q ∈ forward.operands :=
      (List.mem_append.mp member).elim mem_operands_of_mem_derivedKeys id
    have inside := Lineage.inner_of_alike alike fun content condition same =>
      unfiltered (derivation_eq_filter.mpr ⟨content, condition, congrArg some same⟩)
    obtain ⟨x, listed, declares⟩ := NameMap.Declares.exists_of_mem inside q operand
    rw [reaches_of_isPlaceholder declares.isPlaceholder rest]
    exact .inr ⟨x, mem_inner_of_mem_lineage rfl listed, declares⟩

/-- A grain with a reference in it is that of a property with keys or of a metric. -/
theorem purpose_of_open_grain (left : c.grain.hasPlaceholders = true) :
    c.purpose = .property ∧ c.keys ≠ [] ∨ c.purpose = .metric := by
  have components := twins.components.1
  rw [Grain.hasPlaceholders] at left
  cases kind : c.purpose with
  | property =>
    refine .inl ⟨rfl, fun none => ?_⟩
    rw [twins.components_of_no_keys kind none] at left
    cases left
  | metric => exact .inr rfl
  | key =>
    rw [components, canonical_basis_of_key kind] at left
    have bare : (c.withGrain ∅).isPlaceholder = false := twins.present
    simp [bare] at left
  | constant | auto =>
    rw [components, basis, kind] at left
    cases left

/-- A pass makes anew a grain with a reference in it. If this is made of concepts that are declared
already, it comes out as it should. -/
theorem components_of_passes (same : c.purpose = d.purpose)
    (grounded : ∀ p ∈ c.keys ++ c.groups, early.resolve p.address = concepts.resolve p.address)
    (left : c.grain.hasPlaceholders = true) (passes : Builder.Passes early c made) :
    made.grain.components = d.grain.components := by
  have seen : c.hasPlaceholders = true := hasPlaceholders_iff.mpr (.inl left)
  rcases passes with ⟨_, rebound⟩ | ⟨clean, _⟩
  swap
  · cases seen.symm.trans clean
  obtain ⟨lineage, keys, derivation, owners, rfl⟩ := rebind_present twins.present rebound
  let bare := (c.rebuild lineage keys).withGrain ∅
  have anew : (c.rebuild lineage keys).grain = bare.declaredGrain := if_pos left
  obtain ⟨owned, grouped⟩ := List.forall_mem_append.mp grounded
  have basis : bare.basis = d.basis := by
    rcases twins.purpose_of_open_grain left with ⟨property, some⟩ | metric
    · have also := twins.keys same
      have keyed : d.keys ≠ [] := fun none =>
        some (List.forall₂_nil_right_iff.mp (none ▸ also))
      have bound := NameMap.Declares.rebindAll (NameMap.Declares.transfer owned also)
      cases owners.symm.trans bound
      rw [basis_of_keys (c := bare) property keyed,
        basis_of_keys (same.symm.trans property) keyed]
      rfl
    · have bound := NameMap.Declares.rebindAll (NameMap.Declares.transfer grouped twins.groups)
      have groups : bare.groups = d.groups :=
        Except.ok.inj ((rebindAll_groups derivation).symm.trans bound)
      rw [basis_of_metric (c := bare) metric, basis_of_metric (same.symm.trans metric), groups]
  rw [anew, components_declaredGrain (c := bare) rfl, basis, twins.components.2]

end Twins

end Concept

namespace NameMap

variable {concepts final : NameMap Concept}

/-- A pass succeeds if each entry can be bound to the finished ones, and this is so afterwards. -/
theorem Finishes.step (finishes : concepts.Finishes final) (resolves : concepts.Resolves)
    (keys : final.keys = concepts.keys) :
    ∃ next, Builder.bindOnce concepts = .ok next ∧ next.Finishes final := by
  have entries (key : String) (c : Concept) (held : concepts.get? key = some c) :
      ∃ made, Builder.Passes concepts c made ∧ ∃ e bound, final.get? key = some e ∧
        made.rebind final.resolve = .ok bound ∧ bound.datatype = e.datatype := by
    obtain ⟨e, bound, last, done, type⟩ := finishes key c held
    have conform : c.Conforming concepts.resolve final.resolve := by
      intro p reaches missing
      obtain ⟨x, found⟩ := resolves key c held p reaches missing
      exact finishes.conforms keys found
    obtain ⟨made, second, passes, rest, types⟩ := Builder.exists_passes_of_conforming conform done
    exact ⟨made, passes, e, second, last, rest, types.trans type⟩
  cases result : Builder.bindOnce concepts with
  | error e =>
    obtain ⟨key, c, held, seen, failed⟩ := (Builder.settles_bindOnce concepts).error result
    obtain ⟨made, ⟨_, rebound⟩ | ⟨clean, _⟩, _⟩ := entries key c held
    · cases failed.symm.trans rebound
    · cases seen.symm.trans clean
  | ok next =>
    refine ⟨next, rfl, fun key made placed => ?_⟩
    obtain ⟨c, held, passes⟩ := ((Builder.settles_bindOnce concepts).ok result).2 key made placed
    obtain ⟨other, also, finished⟩ := entries key c held
    cases passes.unique also
    exact finished

/-- The passes never fail over a call if each entry can be bound to the finished ones. -/
theorem Finishes.settles_bindWithin (passes : Nat) (finishes : concepts.Finishes final)
    (resolves : concepts.Resolves) (keys : final.keys = concepts.keys) :
    Settles (Builder.bindWithin passes concepts) (·.Finishes final) fun e => ¬ e.IsInvalidCall := by
  induction passes generalizing concepts with
  | zero =>
    rw [Builder.bindWithin]
    split
    · exact finishes
    · exact id
  | succ passes ih =>
    rw [Builder.bindWithin]
    split
    · exact finishes
    · obtain ⟨next, once, ahead⟩ := finishes.step resolves keys
      rw [once]
      exact ih ahead (Builder.resolves_bindOnce once resolves)
        (keys.trans (Builder.keys_bindOnce once).symm)

/-- A finished entry is of the type that it is bound to. -/
theorem Finishes.datatype {late : NameMap Concept} (finishes : final.Finishes late)
    (closed : final.Closed) (settled : final.Settled) {key : String} {entry d : Concept}
    (held : final.get? key = some entry) (last : late.get? key = some d) :
    entry.datatype = d.datatype := by
  obtain ⟨e, bound, found, done, type⟩ := finishes key entry held
  cases last.symm.trans found
  obtain ⟨same, rebound, kept⟩ := entry.stable_rebind fun x reaches =>
    ⟨closed key entry held x reaches, settled key entry held x reaches⟩
  cases done.symm.trans rebound
  exact kept.symm.trans type

/-- Whether entries stand under the same keys as others, each being the same as there or derived
from references to what it is derived from there. -/
structure Rearranges (early late : NameMap Concept) : Prop where
  keys : early.keys = late.keys
  entries : ∀ key c, early.get? key = some c → ∃ d, late.get? key = some d ∧
    (c = d ∧ d.Complete ∨ Concept.Twins late c d)

namespace Rearranges

variable {early late final : NameMap Concept} {key : String} {c d p : Concept}
  (rearranges : early.Rearranges late) (unfiltered : early.Lacks .filter)

include rearranges unfiltered

/-- A reference in an entry stands for a concept that is inside the other entry. -/
theorem declares_of_reaches (held : early.get? key = some c) (reaches : c.Reaches p)
    (missing : p.isPlaceholder = true) :
    ∃ d, late.get? key = some d ∧ ∃ x ∈ d.inner, late.Declares p x := by
  obtain ⟨d, last, ⟨rfl, complete⟩ | twins⟩ := rearranges.entries key c held
  · cases complete.bound.symm.trans (unfiltered.seen held reaches missing)
  · rcases twins.reaches_cases (unfiltered key c held c (.refl c)) reaches with rfl | inside
    · cases twins.present.symm.trans missing
    · exact ⟨d, last, inside⟩

theorem lacks_multiSelect : early.Lacks .multiSelect := by
  intro key c held x reaches
  obtain ⟨d, _, ⟨rfl, complete⟩ | twins⟩ := rearranges.entries key c held
  · exact complete.unaligned x reaches
  · rcases twins.reaches_cases (unfiltered key c held c (.refl c)) reaches with
      rfl | ⟨_, _, declares⟩
    · exact twins.plain.1
    · obtain ⟨ns, name, rfl⟩ := declares.reference
      simp [Concept.derivation_eq_multiSelect, Concept.placeholder]

theorem resolves : early.Resolves := by
  intro key c held p reaches missing
  obtain ⟨_, _, x, _, declares⟩ := rearranges.declares_of_reaches unfiltered held reaches missing
  exact exists_resolve_congr rearranges.keys declares.found

/-- What an entry refers to is smaller among the others, as it is inside. -/
theorem acyclic : early.Acyclic := by
  let size (key : String) : Nat := ((late.get? key).map Concept.weight).getD 0
  have smaller {key target : String} (refers : early.Refers key target) :
      size target < size key := by
    obtain ⟨c, held, p, reaches, missing, rfl⟩ := refers
    obtain ⟨d, last, x, inside, declares⟩ :=
      rearranges.declares_of_reaches unfiltered held reaches missing
    have found := resolve_eq_ok.mp declares.found
    rw [← contains_congr rearranges.keys] at found
    simp only [size, found, last]
    exact Concept.weight_lt_of_mem_inner inside
  have descends {key target : String} (chain : Relation.TransGen early.Refers key target) :
      size target < size key := by
    induction chain with
    | single refers => exact smaller refers
    | tail _ refers ih => exact (smaller refers).trans ih
  exact fun key circle => Nat.lt_irrefl _ (descends circle)

theorem finishes (settled : early.Settled) : early.Finishes late := by
  intro key c held
  obtain ⟨d, last, entry, passes, type⟩ : ∃ d, late.get? key = some d ∧
      ∃ entry, Builder.Passes late c entry ∧ entry.datatype = d.datatype := by
    obtain ⟨d, last, ⟨rfl, complete⟩ | twins⟩ := rearranges.entries key c held
    · exact ⟨c, last, c, .inr ⟨complete.bound, rfl⟩, rfl⟩
    · obtain ⟨entry, passes, becomes⟩ := twins.exists_becomes
      exact ⟨d, last, entry, passes, becomes.datatype⟩
  rcases passes with ⟨_, rebound⟩ | ⟨clean, rfl⟩
  · exact ⟨d, entry, last, rebound, type⟩
  · have present (x : Concept) (reaches : entry.Reaches x) : x.isPlaceholder = false := by
      refine Bool.eq_false_iff.mpr fun missing => ?_
      cases clean.symm.trans (unfiltered.seen held reaches missing)
    obtain ⟨bound, rebound, kept⟩ := entry.stable_rebind fun x reaches =>
      ⟨present x reaches, settled key entry held x reaches⟩
    exact ⟨d, bound, last, rebound, kept.trans type⟩

/-- The entries are bound, to what can be bound to the others. -/
theorem exists_bind (settled : early.Settled) :
    ∃ final, Builder.bind early = .ok final ∧ final.Finishes late := by
  have resolves := rearranges.resolves unfiltered
  have whole : early.Sealed := fun key c held x reaches aligned =>
    absurd aligned (rearranges.lacks_multiSelect unfiltered key c held x reaches)
  have ends := Builder.settles_bind_of_acyclic whole resolves (rearranges.acyclic unfiltered)
  have runs : Settles (Builder.bind early) (·.Finishes late) fun e => ¬ e.IsInvalidCall :=
    (rearranges.finishes unfiltered settled).settles_bindWithin _ resolves rearranges.keys.symm
  cases binding : Builder.bind early with
  | ok final => exact ⟨final, rfl, runs.ok binding⟩
  | error e => exact absurd (ends.error binding) (runs.error binding)

end Rearranges

end NameMap

namespace Builder

variable {concepts late final : NameMap Concept} {key : String} {c d made : Concept}

theorem exists_persists {passes : Nat} (held : concepts.get? key = some c)
    (present : c.isPlaceholder = false) (done : bindWithin passes concepts = .ok final) :
    ∃ entry, final.get? key = some entry ∧ c.Persists entry := by
  refine bindWithin_induction
    (motive := fun concepts => ∀ c : Concept, concepts.get? key = some c →
      c.isPlaceholder = false → ∃ entry, final.get? key = some entry ∧ c.Persists entry)
    (fun _ c held present => ⟨c, held, .refl present⟩) ?_ done c held present
  intro concepts next _ once _ ih c held present
  obtain ⟨made, placed, pass⟩ := exists_passes once held
  have persists := pass.persists present
  obtain ⟨entry, found, after⟩ := ih made placed persists.present
  exact ⟨entry, found, persists.trans after⟩

/-- What becomes of a concept over references if its grain is made of what is declared already. -/
theorem exists_becomes (twins : Concept.Twins late c d)
    (grounded : ∀ p ∈ c.keys ++ c.groups, concepts.resolve p.address = late.resolve p.address)
    (held : concepts.get? key = some c) (binding : bind concepts = .ok final)
    (types : ∀ entry, final.get? key = some entry → entry.datatype = d.datatype) :
    ∃ entry, final.get? key = some entry ∧ Concept.Becomes c d entry := by
  obtain ⟨entry, found, persists⟩ := exists_persists held twins.present binding
  obtain ⟨name, ns⟩ := twins.named
  refine ⟨entry, found, hasPlaceholders_of_bindWithin binding found, persists.name.trans name,
    persists.ns.trans ns, types entry found, persists.purpose, persists.grain, fun left same => ?_⟩
  -- The first pass makes the grain anew, and those after it keep it.
  rcases bindWithin_cases binding with ⟨none, _⟩ | ⟨_, _, next, _, once, rest⟩
  · have seen : c.hasPlaceholders = true := Concept.hasPlaceholders_iff.mpr (.inl left)
    cases (unbound_eq_nil.mp none key c held).symm.trans seen
  · obtain ⟨made, placed, pass⟩ := exists_passes once held
    have components := twins.components_of_passes same grounded left pass
    have clean : made.grain.hasPlaceholders = false := by
      rw [Grain.hasPlaceholders, components]
      exact (Concept.hasPlaceholders_eq_false.mp twins.complete.bound).1
    obtain ⟨other, also, after⟩ := exists_persists placed (pass.persists twins.present).present rest
    cases found.symm.trans also
    rw [after.grain clean, components]

/-- Concepts that are declared over references to each other, in any order and without filters, are
in the catalog, unless references are left in the columns. Each is of the type that it has if it is
declared over the declarations instead. Where its keys and what it is grouped by are not declared
over references themselves, it agrees with that concept under the same conditions as if it referred
to such concepts only. -/
theorem build_chains {early late : Builder} {ordered : Catalog}
    (rearranges : early.concepts.Rearranges late.concepts)
    (unfiltered : early.concepts.Lacks .filter)
    (formed : ∀ key c, early.concepts.get? key = some c → c.Formed (· ≠ .unknown))
    (built : late.build = .ok ordered) :
    Settles early.build
      (fun catalog => ∀ key c, early.concepts.get? key = some c →
        ∃ entry other, catalog.concepts.get? key = some entry ∧
          ordered.concepts.get? key = some other ∧ entry.hasPlaceholders = false ∧
          entry.datatype = other.datatype ∧ (c = other → entry = other) ∧
          (Concept.Twins late.concepts c other →
            (∀ p ∈ c.keys ++ c.groups,
              early.concepts.resolve p.address = late.concepts.resolve p.address) →
            (entry.agrees other = true ↔ c.purpose = other.purpose ∧
              (other.purpose = .property → other.keys = [] → other.grain.isAbstract = true))))
      fun _ => early.ColumnsOpen := by
  have settled : early.concepts.Settled := fun key x held y reaches =>
    ((formed key x held).regular y reaches).settled fun aligned =>
      absurd aligned (rearranges.lacks_multiSelect unfiltered key x held y reaches)
  obtain ⟨final, binding, finishes⟩ := rearranges.exists_bind unfiltered settled
  have closed := (closed_of_unfiltered unfiltered binding).1
  have last : final.Settled :=
    bindWithin_keeps NameMap.Settled (fun _ _ => settled_bindOnce) settled binding
  refine (settles_build_of_bind binding).weaken (fun catalog keeps key c held => ?_)
    fun _ left => left
  obtain ⟨d, declared, cases⟩ := rearranges.entries key c held
  have complete : d.Complete := cases.elim (·.2) (·.complete)
  have other : ordered.concepts.get? key = some d :=
    (settles_build declared (.inr ⟨complete.bound, rfl⟩) complete.bound).ok built
  obtain ⟨entry, found⟩ := NameMap.exists_get?_of_mem_keys
    (keys_bindWithin binding ▸ NameMap.mem_keys_of_get? held)
  have types (entry : Concept) (found : final.get? key = some entry) :
      entry.datatype = d.datatype := finishes.datatype closed last found declared
  refine ⟨entry, d, keeps key entry found, other, hasPlaceholders_of_bindWithin binding found,
    types entry found, ?_, fun twins grounded => ?_⟩
  · rintro rfl
    have kept := (settles_bind held (.inr ⟨complete.bound, rfl⟩) complete.bound).ok binding
    exact Option.some.inj (found.symm.trans kept)
  · obtain ⟨also, same, becomes⟩ := exists_becomes twins grounded held binding types
    cases found.symm.trans same
    exact twins.agrees_iff becomes

end Builder

namespace Purchases

/-- Totals of what is twice the amount, before that and before the amount. -/
def chained : List Concept :=
  [total (refer "double") [refer "product"] .unknown, double (refer "amount") .unknown]

def inOrder : List Concept := [total (double amount .float) [product] .float, double amount .float]

theorem twins_total :
    Concept.Twins (declaring inOrder).concepts (total (refer "double") [refer "product"] .unknown)
      (total (double amount .float) [product] .float) := by
  have read : (declaring inOrder).concepts.Declares (refer "double") (double amount .float) :=
    declares_refer rfl (by decide +kernel) (by decide +kernel)
  have owner : (declaring inOrder).concepts.Declares (refer "product") product :=
    declares_refer rfl rfl (by decide +kernel)
  have sums : (sum (refer "double") .unknown).Alike (declaring inOrder).concepts.Declares
      (sum (double amount .float) .float) :=
    .undeclared rfl (.cons (.concept read) .nil) ⟨_, rfl, rfl⟩ ⟨_, rfl, rfl⟩
  exact .of "total" .auto (.aggregate (.grouped sums (.cons owner .nil)))

theorem twins_double :
    Concept.Twins (declaring inOrder).concepts (double (refer "amount") .unknown)
      (double amount .float) := by
  have read : (declaring inOrder).concepts.Declares (refer "amount") amount :=
    declares_refer rfl (by decide +kernel) (by decide +kernel)
  exact .of "double" .property (.call (doubling_alike read ⟨_, rfl, rfl⟩))

/-- What holds of all concepts that are declared holds of the entries. -/
theorem forall_declaring (holds : String → Concept → Prop) {derived : List Concept}
    (all : ∀ c ∈ derived ++ [amount, orders, product], holds c.address c) {key : String}
    {c : Concept} (held : (declaring derived).concepts.get? key = some c) : holds key c := by
  have listed := NameMap.mem_of_mem_ofList (NameMap.mem_entries_of_get? held)
  obtain ⟨x, member, same⟩ := List.mem_map.mp listed
  obtain ⟨rfl, rfl⟩ := Prod.mk.inj same
  exact all x member

theorem rearranges_chained :
    (declaring chained).concepts.Rearranges (declaring inOrder).concepts where
  keys := by decide +kernel
  entries key c held := by
    refine forall_declaring (fun key c => ∃ d, (declaring inOrder).concepts.get? key = some d ∧
      (c = d ∧ d.Complete ∨ Concept.Twins (declaring inOrder).concepts c d)) ?_ held
    have complete (c : Concept) (bound : c.hasPlaceholders = false)
        (plain : c.reachesOnly (·.derivation != .multiSelect) 2 = true) : c.Complete :=
      Concept.complete_of_reachesOnly 2 bound plain
    simp only [chained, List.cons_append, List.nil_append, List.forall_mem_cons]
    exact ⟨⟨_, rfl, .inr twins_total⟩, ⟨_, rfl, .inr twins_double⟩,
      ⟨_, rfl, .inl ⟨rfl, complete amount (by decide +kernel) (by decide +kernel)⟩⟩,
      ⟨_, rfl, .inl ⟨rfl, complete orders (by decide +kernel) (by decide +kernel)⟩⟩,
      ⟨_, rfl, .inl ⟨rfl, complete product (by decide +kernel) (by decide +kernel)⟩⟩,
      List.forall_mem_nil _⟩

theorem formed_chained (key : String) (c : Concept)
    (held : (declaring chained).concepts.get? key = some c) : c.Formed (· ≠ .unknown) := by
  refine forall_declaring (fun _ c => c.Formed (· ≠ .unknown)) ?_ held
  have sums : (sum (refer "double") .unknown).Formed (· ≠ .unknown) := by
    refine .of ?_ (rfl : Call.of .sum [.concept (refer "double")] = _)
    exact List.forall_mem_singleton.mpr (.concept (.placeholder _ _))
  have doubles : (doubling (refer "amount") .unknown .property).Formed (· ≠ .unknown) := by
    refine .of ?_ (rfl : Call.of .multiply [.concept (refer "amount"), .literal (.integer 2)] = _)
    exact List.forall_mem_cons.mpr ⟨.concept (.placeholder _ _),
      List.forall_mem_singleton.mpr (.literal _)⟩
  simp only [chained, List.cons_append, List.nil_append, List.forall_mem_cons]
  refine ⟨.derive "total" .auto (.aggregate (.grouped sums ?_)),
    .derive "double" .property (.call doubles), .withKeys (.declare "amount" .float .property) ?_,
    .declare "orders" .integer .metric, .declare "product" .integer .key, List.forall_mem_nil _⟩
  · exact List.forall_mem_singleton.mpr (.placeholder _ _)
  · exact List.forall_mem_singleton.mpr (.declare "product" .integer .key)

end Purchases

/-- Totals of what is twice the amount may be declared first of all. -/
theorem Builder.build_chains_totals :
    ∃ catalog ordered entry other,
      (Purchases.declaring Purchases.chained).build = .ok catalog ∧
        (Purchases.declaring Purchases.inOrder).build = .ok ordered ∧
        catalog.concepts.get? "local.total" = some entry ∧
        ordered.concepts.get? "local.total" = some other ∧ entry.agrees other = true := by
  have builds : Settles (Purchases.declaring Purchases.chained).build (fun _ => True)
      fun _ => False := by
    decide +kernel
  have others : Settles (Purchases.declaring Purchases.inOrder).build (fun _ => True)
      fun _ => False := by
    decide +kernel
  obtain ⟨catalog, done, _⟩ := builds.exists_ok
  obtain ⟨ordered, built, _⟩ := others.exists_ok
  have bound := Purchases.twins_total.complete.bound
  have declared : (Purchases.declaring Purchases.inOrder).concepts.get? "local.total" =
      some (Purchases.total (Purchases.double Purchases.amount .float) [Purchases.product]
        .float) := rfl
  have listed := (settles_build declared (.inr ⟨bound, rfl⟩) bound).ok built
  obtain ⟨entry, other, made, found, _, _, _, agrees⟩ :=
    (build_chains Purchases.rearranges_chained
      (NameMap.lacks_of_reachesOnly 3 (by decide +kernel)) Purchases.formed_chained built).ok done
      "local.total" _ rfl
  cases listed.symm.trans found
  refine ⟨catalog, ordered, entry, _, done, built, made, found,
    (agrees Purchases.twins_total ?_).mpr ⟨rfl, ?_⟩⟩
  · exact List.forall_mem_singleton.mpr rfl
  · intro property
    cases property

end SemanticQuery
