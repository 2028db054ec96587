import SemanticQuery.Proofs.BindingSteps

/-!
The stages of a catalog that is being bound. An entry is bound to others that are unfinished
themselves, and so on until nothing is left open. Whatever the stage, each entry could as well be
bound to the finished entries at once, and would get the type that it has in the end.
-/

namespace SemanticQuery

theorem Call.Rebuilt.settled {f g : Call} (rebuilt : f.Rebuilt g) : g.Settled := by
  obtain ⟨_, _, same⟩ := rebuild_eq_ok_iff.mp rebuilt
  refine ⟨rebuilt.fits, fun unknown => ?_⟩
  have datatype := congrArg Call.datatype same
  rw [unknown, rebuiltType] at datatype
  split at datatype
  · rw [congrArg Call.operator same]
    exact datatype.symm
  · next known => exact absurd (.inl datatype.symm) known

theorem Call.Rebuilt.forall_settled {fs gs : List Call} (rebuilt : List.Forall₂ Rebuilt fs gs) :
    ∀ g ∈ gs, g.Settled := by
  induction rebuilt with
  | nil => exact List.forall_mem_nil _
  | cons first _ ih => exact List.forall_mem_cons.mpr ⟨first.settled, ih⟩

namespace Concept

/-- Binding settles a concept, whatever it was like before. -/
theorem settled_rebind {resolve : Resolver} {c bound : Concept} (present : c.isPlaceholder = false)
    (done : c.rebind resolve = .ok bound) : bound.Settled := by
  refine ⟨Call.Rebuilt.forall_settled (rebuilt_calls present done), ?_⟩
  intro lineage derived unknown
  obtain ⟨made, keys, _, _, rfl⟩ := rebind_present present done
  have same : made = some lineage := derived
  rw [datatype_rebuilt, same] at unknown
  split at unknown
  · exact unknown
  · next known => exact absurd unknown known

theorem Regular.settled {c : Concept} (regular : c.Regular (· ≠ .unknown))
    (typed : c.derivation = .multiSelect → c.datatype ≠ .unknown) : c.Settled := by
  refine ⟨fun f member => ⟨(regular.calls f member).fits, fun unknown => ?_⟩,
    fun lineage derived unknown => ?_⟩
  · rcases (regular.calls f member).datatype with same | known
    · rw [← same, unknown]
    · exact absurd unknown known
  · rw [← regular.datatype lineage derived fun aligned => typed aligned unknown, unknown]

/-- What the passes keep of a concept, in which they make anew only a grain with references. -/
structure Persists (c made : Concept) : Prop where
  present : made.isPlaceholder = false
  name : made.name = c.name
  ns : made.ns = c.ns
  purpose : made.purpose = c.purpose
  grain : c.grain.hasPlaceholders = false → made.grain = c.grain

theorem Persists.refl {c : Concept} (present : c.isPlaceholder = false) : c.Persists c :=
  ⟨present, rfl, rfl, rfl, fun _ => rfl⟩

theorem Persists.trans {c made entry : Concept} (before : c.Persists made)
    (after : made.Persists entry) : c.Persists entry := by
  refine ⟨after.present, after.name.trans before.name, after.ns.trans before.ns,
    after.purpose.trans before.purpose, fun clean => ?_⟩
  have kept := before.grain clean
  rw [after.grain (kept ▸ clean), kept]

theorem Persists.address {c made : Concept} (persists : c.Persists made) :
    made.address = c.address := by
  rw [Concept.address, persists.name, persists.ns, Concept.address]

end Concept

namespace NameMap

/-- Whether all that is reached from an entry is settled. -/
def Settled (concepts : NameMap Concept) : Prop :=
  ∀ key c, concepts.get? key = some c → c.Throughout Concept.Settled

/-- Whether no placeholder is reached from an entry. -/
def Closed (concepts : NameMap Concept) : Prop :=
  ∀ key c, concepts.get? key = some c → c.Throughout (·.isPlaceholder = false)

/-- Whether each entry can be bound to the finished ones, to the type of its finished entry. -/
def Finishes (concepts final : NameMap Concept) : Prop :=
  ∀ key c, concepts.get? key = some c → ∃ e bound, final.get? key = some e ∧
    c.rebind final.resolve = .ok bound ∧ bound.datatype = e.datatype

variable {concepts final : NameMap Concept}

theorem finishes_self (closed : final.Closed) (settled : final.Settled) :
    final.Finishes final := by
  intro key c held
  obtain ⟨bound, done, type⟩ := c.stable_rebind fun x reaches =>
    ⟨closed key c held x reaches, settled key c held x reaches⟩
  exact ⟨c, bound, held, done, type⟩

/-- What an address is resolved to is finished by what it is resolved to in the end. -/
theorem Finishes.conforms (finishes : concepts.Finishes final) (keys : final.keys = concepts.keys)
    {address : String} {c : Concept} (found : concepts.resolve address = .ok c) :
    Conforms concepts.resolve final.resolve address := by
  obtain ⟨e, bound, held, done, type⟩ := finishes _ c (resolve_eq_ok.mp found)
  rw [← contains_congr keys] at held
  exact ⟨c, bound, e, found, resolve_eq_ok.mpr held, done, type⟩

end NameMap

namespace Builder

open NameMap

variable {concepts next final : NameMap Concept}

/-- Every entry takes part in a pass. -/
theorem exists_passes (done : bindOnce concepts = .ok next) {key : String} {c : Concept}
    (held : concepts.get? key = some c) :
    ∃ made, next.get? key = some made ∧ Passes concepts c made := by
  obtain ⟨made, placed⟩ := exists_get?_of_mem_keys (keys_bindOnce done ▸ mem_keys_of_get? held)
  obtain ⟨old, same, passes⟩ := ((settles_bindOnce concepts).ok done).2 key made placed
  cases held.symm.trans same
  exact ⟨made, placed, passes⟩

theorem Passes.persists {c made : Concept} (passes : Passes concepts c made)
    (present : c.isPlaceholder = false) : c.Persists made := by
  rcases passes with ⟨_, rebound⟩ | ⟨_, rfl⟩
  · have still := Concept.isPlaceholder_rebind present rebound
    obtain ⟨lineage, keys, _, _, rfl⟩ := Concept.rebind_present present rebound
    exact ⟨still, rfl, rfl, rfl, fun clean => if_neg (Bool.eq_false_iff.mp clean)⟩
  · exact .refl present

/-- A concept that can be bound to the finished entries takes part in a pass before that. -/
theorem exists_passes_of_conforming {c bound : Concept}
    (conform : c.Conforming concepts.resolve final.resolve)
    (done : c.rebind final.resolve = .ok bound) :
    ∃ made second, Passes concepts c made ∧ made.rebind final.resolve = .ok second ∧
      second.datatype = bound.datatype := by
  cases seen : c.hasPlaceholders with
  | true =>
    obtain ⟨made, second, first, rest, types⟩ := (c.chains_rebind conform).1 bound done
    exact ⟨made, second, .inl ⟨seen, first⟩, rest, Option.some.inj types.1⟩
  | false => exact ⟨c, bound, .inr ⟨seen, rfl⟩, done, rfl⟩

theorem settled_bindOnce (settled : concepts.Settled) (done : bindOnce concepts = .ok next) :
    next.Settled := by
  intro key c made y reaches
  rcases reaches_bindOnce done made reaches with
    ⟨_, held⟩ | ⟨target, e, _, held, within⟩ | ⟨_, x, _, _, present, rebound⟩
  · exact settled key c held y reaches
  · exact settled target e held y within
  · exact x.settled_rebind present rebound

/-- An entry can be finished before a pass if it can afterwards: what it refers to can, and binding
to that first changes nothing. -/
theorem finishes_of_bindOnce {rank : String → Nat} (resolves : concepts.Resolves)
    (lower : ∀ key target, concepts.Refers key target → rank target < rank key)
    (done : bindOnce concepts = .ok next) (keys : final.keys = concepts.keys)
    (finishes : next.Finishes final) : concepts.Finishes final := by
  intro key
  -- induction on the rank, since the entries that are referred to come first
  induction level : rank key using Nat.strong_induction_on generalizing key with
  | _ level ih =>
    intro c held
    obtain ⟨made, placed, passes⟩ := exists_passes done held
    obtain ⟨e, bound, last, finished, type⟩ := finishes key made placed
    rcases passes with ⟨_, rebound⟩ | ⟨_, rfl⟩
    · have conform : c.Conforming concepts.resolve final.resolve := by
        intro p reaches missing
        obtain ⟨x, found⟩ := resolves key c held p reaches missing
        have below := lower key _ ⟨c, held, p, reaches, missing, rfl⟩
        obtain ⟨f, early, listed, rebound, types⟩ :=
          ih _ (level ▸ below) _ rfl x (resolve_eq_ok.mp found)
        rw [← contains_congr keys] at listed
        exact ⟨x, early, f, found, resolve_eq_ok.mpr listed, rebound, types⟩
      obtain ⟨single, once, types⟩ := (c.chains_rebind conform).2 made bound rebound finished
      exact ⟨e, single, last, once, (Option.some.inj types.1).symm.trans type⟩
    · exact ⟨e, bound, last, finished, type⟩

theorem keys_bindWithin {passes : Nat} (done : bindWithin passes concepts = .ok final) :
    final.keys = concepts.keys :=
  bindWithin_keeps (·.keys = concepts.keys)
    (fun _ _ same once => (keys_bindOnce once).trans same) rfl done

/-- The ways in which passes come to an end. -/
theorem bindWithin_cases {passes : Nat} (done : bindWithin passes concepts = .ok final) :
    (unbound concepts = [] ∧ final = concepts) ∨
      unbound concepts ≠ [] ∧ ∃ more next, passes = more + 1 ∧ bindOnce concepts = .ok next ∧
        bindWithin more next = .ok final := by
  cases passes with
  | zero =>
    rw [bindWithin] at done
    split at done
    · next none =>
      cases done
      exact .inl ⟨none, rfl⟩
    · cases done
  | succ more =>
    rw [bindWithin] at done
    split at done
    · next none =>
      cases done
      exact .inl ⟨List.isEmpty_iff.mp none, rfl⟩
    · next some =>
      obtain ⟨next, once, rest⟩ := bind_eq_ok.mp done
      exact .inr ⟨by simpa using some, more, next, rfl, once, rest⟩

/-- What holds of entries in which nothing is open, and before a pass if it holds after it, holds of
every stage of a run that succeeds. -/
theorem bindWithin_induction {motive : NameMap Concept → Prop} {passes : Nat}
    (last : unbound final = [] → motive final)
    (before : ∀ concepts next more, bindOnce concepts = .ok next →
      bindWithin more next = .ok final → motive next → motive concepts)
    (done : bindWithin passes concepts = .ok final) : motive concepts := by
  induction passes using Nat.strong_induction_on generalizing concepts with
  | _ passes ih =>
    rcases bindWithin_cases done with ⟨none, rfl⟩ | ⟨_, more, next, rfl, once, rest⟩
    · exact last none
    · exact before concepts next more once rest (ih more (Nat.lt_succ_self more) rest)

/-- Every stage of a run can be finished with what comes out. -/
theorem Outstanding.finishes {rank : String → Nat} {passed passes : Nat}
    (outstanding : Outstanding rank passed concepts) (done : bindWithin passes concepts = .ok final)
    (closed : final.Closed) (settled : final.Settled) : concepts.Finishes final := by
  refine bindWithin_induction
    (motive := fun concepts => ∀ passed, Outstanding rank passed concepts → concepts.Finishes final)
    (fun _ _ _ => finishes_self closed settled) ?_ done passed outstanding
  intro concepts next more once rest ih passed outstanding
  have keys := (keys_bindWithin rest).trans (keys_bindOnce once)
  exact finishes_of_bindOnce outstanding.resolves outstanding.lower once keys
    (ih (passed + 1) (outstanding.step once))

section Converse

variable {passes : Nat}

/-- Where nothing is left open in the end, every reference was found. -/
theorem resolves_of_closed (done : bindWithin passes concepts = .ok final)
    (closed : final.Closed) : concepts.Resolves := by
  refine bindWithin_induction (motive := NameMap.Resolves) ?_ ?_ done
  · intro _ key c held p reaches missing
    cases (closed key c held p reaches).symm.trans missing
  · intro concepts next _ once _ ih key c held p reaches missing
    cases seen : c.hasPlaceholders with
    | true =>
      obtain ⟨made, _, ⟨_, rebound⟩ | ⟨clean, _⟩⟩ := exists_passes once held
      · obtain ⟨e, found, _⟩ := Concept.exists_of_reaches_placeholder reaches missing rebound
        exact ⟨e, found⟩
      · cases seen.symm.trans clean
    | false =>
      have kept := get?_bindOnce once held (.inr ⟨seen, rfl⟩)
      obtain ⟨e, found⟩ := ih key c kept p reaches missing
      exact exists_resolve_congr (keys_bindOnce once).symm found

/-- Aligned selects are left as they are by a pass, so that they had no placeholders before. -/
theorem sealed_of_bindOnce (done : bindOnce concepts = .ok next) (whole : next.Sealed) :
    concepts.Sealed := by
  intro key c held x reaches aligned
  obtain ⟨made, placed, ⟨_, rebound⟩ | ⟨_, rfl⟩⟩ := exists_passes done held
  · have present : x.isPlaceholder = false := by
      obtain ⟨multi, derived⟩ := Concept.derivation_eq_multiSelect.mp aligned
      simp [Concept.isPlaceholder, derived]
    obtain ⟨y, bound, within⟩ := Concept.exists_of_reaches reaches rebound
    have same := Concept.lineage_rebind present bound aligned
    have kept := whole key made placed y (within y (.refl y))
    rw [Concept.Sealed, Concept.derivation_eq_multiSelect, same,
      ← Concept.derivation_eq_multiSelect, Concept.reads, same] at kept
    exact kept aligned
  · exact whole key made placed x reaches aligned

theorem sealed_of_bindWithin (done : bindWithin passes concepts = .ok final)
    (whole : final.Sealed) : concepts.Sealed :=
  bindWithin_induction (motive := NameMap.Sealed) (fun _ => whole)
    (fun _ _ _ once _ => sealed_of_bindOnce once) done

/-- A reference is kept by a pass that leaves its entry alone; else the references of what it refers
to take its place. -/
theorem refers_of_bindOnce (done : bindOnce concepts = .ok next) {key target : String}
    (refers : concepts.Refers key target) :
    next.Refers key target ∨
      ∀ further, concepts.Refers target further → next.Refers key further := by
  obtain ⟨c, held, p, reaches, missing, rfl⟩ := refers
  cases seen : c.hasPlaceholders with
  | false =>
    exact .inl ⟨c, get?_bindOnce done held (.inr ⟨seen, rfl⟩), p, reaches, missing,
      qualify_bindOnce done _⟩
  | true =>
    obtain ⟨made, placed, ⟨_, rebound⟩ | ⟨clean, _⟩⟩ := exists_passes done held
    · obtain ⟨e, found, takes⟩ := Concept.exists_of_reaches_placeholder reaches missing rebound
      refine .inr fun further => ?_
      rintro ⟨other, declared, q, within, absent, rfl⟩
      cases declared.symm.trans (resolve_eq_ok.mp found)
      exact ⟨made, placed, q, takes q within, absent, qualify_bindOnce done _⟩
    · cases seen.symm.trans clean

theorem not_closed_of_refers {key target : String} (refers : concepts.Refers key target) :
    ¬ concepts.Closed := by
  obtain ⟨c, held, p, reaches, missing, _⟩ := refers
  intro closed
  cases (closed key c held p reaches).symm.trans missing

/-- Entries of which each refers to one of them stay open. -/
theorem not_closed_of_circle (circle : String → Prop)
    (done : bindWithin passes concepts = .ok final)
    (leads : ∀ key, circle key → ∃ target, circle target ∧ concepts.Refers key target)
    {key : String} (start : circle key) : ¬ final.Closed := by
  refine bindWithin_induction
    (motive := fun concepts => (∀ key, circle key → ∃ target, circle target ∧
      concepts.Refers key target) → ¬ final.Closed) ?_ ?_ done leads
  · intro _ leads
    obtain ⟨_, _, refers⟩ := leads key start
    exact not_closed_of_refers refers
  · intro concepts next _ once _ ih leads
    refine ih fun key member => ?_
    obtain ⟨target, also, refers⟩ := leads key member
    obtain ⟨further, beyond, onward⟩ := leads target also
    rcases refers_of_bindOnce once refers with kept | taken
    · exact ⟨target, also, kept⟩
    · exact ⟨further, beyond, taken further onward⟩

theorem acyclic_of_closed (done : bindWithin passes concepts = .ok final)
    (closed : final.Closed) : concepts.Acyclic := by
  intro key circle
  refine not_closed_of_circle (fun key => Relation.TransGen concepts.Refers key key) done
    (fun key circle => ?_) circle closed
  obtain ⟨target, first, back⟩ := Relation.TransGen.head'_iff.mp circle
  exact ⟨target, .tail' back first, first⟩

end Converse

end Builder

end SemanticQuery
