import SemanticQuery.Proofs.Stages

/-!
Binding with one more entry. Where nothing refers to a new entry, all others are bound as they are
without it. The entry itself is bound to unfinished entries on the way, which does no harm if it can
be bound to the finished ones.
-/

namespace SemanticQuery

namespace NameMap

/-- A map is determined by its values. -/
theorem ext_get? {m n : NameMap α} (same : ∀ name, m.get? name = n.get? name) : m = n := by
  have distinct (m : NameMap α) : m.entries.Nodup :=
    m.increasing.imp fun lt same => String.ne_of_lt lt (congrArg Prod.fst same)
  have permuted : m.entries.Perm n.entries := by
    refine (List.perm_ext_iff_of_nodup (distinct m) (distinct n)).mpr fun entry => ?_
    obtain ⟨name, value⟩ := entry
    rw [mem_entries_iff, mem_entries_iff, same]
  have entries : m.entries = n.entries := by
    refine List.Perm.eq_of_pairwise ?_ m.increasing n.increasing permuted
    intro x y _ _ lt gt
    exact absurd (String.lt_trans lt gt) (String.lt_irrefl _)
  cases m
  cases n
  cases entries
  rfl

theorem size_insert {m : NameMap α} {name : String} (free : name ∉ m.keys) (value : α) :
    (m.insert name value).size = m.size + 1 := by
  have distinct (m : NameMap α) : m.keys.Nodup := m.increasing_keys.imp String.ne_of_lt
  have permuted : (m.insert name value).keys.Perm (name :: m.keys) := by
    refine (List.perm_ext_iff_of_nodup (distinct _)
      (List.nodup_cons.mpr ⟨free, distinct m⟩)).mpr fun other => ?_
    rw [mem_keys_insert, List.mem_cons]
  simpa [keys, size] using permuted.length_eq

theorem contains_eq_isSome (m : NameMap α) (name : String) :
    m.contains name = (m.get? name).isSome := by
  rw [Bool.eq_iff_iff, contains_iff, ← not_iff_not, ← get?_eq_none_iff]
  simp

/-- Maps resolve a reference alike if they have the same under it and under the name that it has in
the default namespace. -/
theorem resolve_congr {m n : NameMap Concept} {reference : String} {e : Concept}
    (here : m.get? reference = n.get? reference)
    (inDefault : m.get? (defaultNamespace ++ "." ++ reference) =
      n.get? (defaultNamespace ++ "." ++ reference)) :
    SemanticQuery.qualify m.contains reference = SemanticQuery.qualify n.contains reference ∧
      (m.resolve reference = .ok e ↔ n.resolve reference = .ok e) := by
  have same : SemanticQuery.qualify m.contains reference =
      SemanticQuery.qualify n.contains reference := by
    simp only [SemanticQuery.qualify, contains_eq_isSome, here, inDefault]
  refine ⟨same, ?_⟩
  rw [resolve_eq_ok, resolve_eq_ok, same]
  unfold SemanticQuery.qualify
  dsimp only
  split
  · rw [here]
  · split
    · rw [inDefault]
    · rw [here]

end NameMap

/-- A name that is neither the address nor below it. -/
def Apart (address name : String) : Prop :=
  name ≠ address ∧ ¬ (address ++ ".").toList <+: name.toList

/-- A reference that cannot be taken for an address, nor for what is below it. -/
structure Spares (address reference : String) : Prop where
  here : Apart address reference
  inDefault : Apart address (defaultNamespace ++ "." ++ reference)

/-- Whether every reference in a concept spares an address and is found. -/
def Concept.Grounded (concepts : NameMap Concept) (address : String) (c : Concept) : Prop :=
  c.Throughout fun p => p.isPlaceholder = true →
    Spares address p.address ∧ ∃ e, concepts.resolve p.address = .ok e

namespace Builder

open NameMap

variable {concepts next final : NameMap Concept} {address : String} {c x y : Concept}

theorem resolve_insert {reference : String} {e : Concept} (spares : Spares address reference) :
    SemanticQuery.qualify (concepts.insert address c).contains reference =
        SemanticQuery.qualify concepts.contains reference ∧
      ((concepts.insert address c).resolve reference = .ok e ↔
        concepts.resolve reference = .ok e) := by
  refine resolve_congr ?_ ?_
  · rw [get?_insert, if_neg spares.here.1]
  · rw [get?_insert, if_neg spares.inDefault.1]

/-- A new entry makes no difference to what is bound without it. -/
theorem rebind_insert (grounded : x.Grounded concepts address) :
    x.rebind (concepts.insert address c).resolve = x.rebind concepts.resolve := by
  refine x.rebind_congr fun p reaches missing => ?_
  obtain ⟨spares, e, found⟩ := grounded p reaches missing
  rw [found]
  exact (resolve_insert spares).2.mpr found

theorem passes_insert (grounded : x.Grounded concepts address) :
    Passes (concepts.insert address c) x y ↔ Passes concepts x y := by
  rw [Passes, Passes, rebind_insert grounded]

/-- A pass with a new entry does what it does without, and what it does to the entry. -/
theorem bindOnce_insert {made : Concept}
    (others : ∀ key x, concepts.get? key = some x → x.Grounded concepts address)
    (own : c.Grounded concepts address) (done : bindOnce concepts = .ok next)
    (passes : Passes concepts c made) :
    bindOnce (concepts.insert address c) = .ok (next.insert address made) := by
  have entries (key : String) (x : Concept)
      (held : (concepts.insert address c).get? key = some x) :
      ∃ y, Passes (concepts.insert address c) x y ∧
        (next.insert address made).get? key = some y := by
    rw [get?_insert] at held
    rw [get?_insert]
    split at held
    · next same =>
      cases held
      exact ⟨made, (passes_insert own).mpr passes, if_pos same⟩
    · next differs =>
      obtain ⟨y, placed, pass⟩ := exists_passes done held
      exact ⟨y, (passes_insert (others key x held)).mpr pass, (if_neg differs).trans placed⟩
  cases result : bindOnce (concepts.insert address c) with
  | error e =>
    obtain ⟨key, x, held, seen, failed⟩ := (settles_bindOnce _).error result
    obtain ⟨y, ⟨_, rebound⟩ | ⟨clean, _⟩, _⟩ := entries key x held
    · cases failed.symm.trans rebound
    · cases seen.symm.trans clean
  | ok m =>
    refine congrArg Except.ok (ext_get? fun key => ?_)
    cases held : (concepts.insert address c).get? key with
    | some x =>
      obtain ⟨y, pass, placed⟩ := entries key x held
      rw [get?_bindOnce result held pass, placed]
    | none =>
      have absent := get?_eq_none_iff.mp held
      rw [get?_eq_none_iff.mpr (keys_bindOnce result ▸ absent), eq_comm, get?_eq_none_iff,
        mem_keys_insert, keys_bindOnce done, ← mem_keys_insert]
      exact absent

/-- What stands beside the entries of a stage: a concept that is not referred to, whose references
are found and that can be bound to the finished entries. -/
structure Joins (concepts final : NameMap Concept) (c : Concept) : Prop where
  free : c.address ∉ concepts.keys
  others : ∀ key x, concepts.get? key = some x → x.Grounded concepts c.address
  own : c.Grounded concepts c.address
  present : c.isPlaceholder = false
  whole : c.Throughout Concept.Sealed
  finishes : ∃ bound, c.rebind final.resolve = .ok bound

/-- What a pass makes of a concept is grounded, since the entries are. -/
theorem grounded_of_passes (done : bindOnce concepts = .ok next)
    (others : ∀ key x, concepts.get? key = some x → x.Grounded concepts address)
    (grounded : x.Grounded concepts address) (passes : Passes concepts x y) :
    y.Grounded next address := by
  intro p reaches missing
  have before : Spares address p.address ∧ ∃ e, concepts.resolve p.address = .ok e := by
    rcases passes with ⟨_, rebound⟩ | ⟨_, rfl⟩
    · rcases Concept.reaches_rebind reaches rebound with
        ⟨q, e, _, _, found, within⟩ | ⟨z, _, present, made⟩
      · exact others _ e (resolve_eq_ok.mp found) p within missing
      · cases (Concept.isPlaceholder_rebind present made).symm.trans missing
    · exact grounded p reaches missing
  obtain ⟨spares, e, found⟩ := before
  exact ⟨spares, exists_resolve_congr (keys_bindOnce done) found⟩

theorem sealed_of_passes (entries : concepts.Sealed) (whole : x.Throughout Concept.Sealed)
    (passes : Passes concepts x y) : y.Throughout Concept.Sealed := by
  rcases passes with ⟨_, rebound⟩ | ⟨_, rfl⟩
  · intro z reaches
    rcases Concept.reaches_rebind reaches rebound with
      ⟨q, e, _, _, found, within⟩ | ⟨w, within, present, made⟩
    · exact entries _ e (resolve_eq_ok.mp found) z within
    · exact (whole w within).rebind present made
  · exact whole

/-- A pass with the new concept does what it does without, and goes on with the concept. -/
theorem Joins.step (joins : Joins concepts final c) (entries : concepts.Sealed)
    (finishes : concepts.Finishes final) (keys : final.keys = concepts.keys)
    (done : bindOnce concepts = .ok next) :
    ∃ made, made.address = c.address ∧
      bindOnce (concepts.insert c.address c) = .ok (next.insert c.address made) ∧
        Joins next final made := by
  have conform : c.Conforming concepts.resolve final.resolve := by
    intro p reaches missing
    obtain ⟨_, e, found⟩ := joins.own p reaches missing
    exact finishes.conforms keys found
  obtain ⟨bound, last⟩ := joins.finishes
  obtain ⟨made, second, passes, rest, _⟩ := exists_passes_of_conforming conform last
  have persists := passes.persists joins.present
  refine ⟨made, persists.address, ?_, ?_⟩
  · exact bindOnce_insert joins.others joins.own done passes
  · refine ⟨?_, fun key x held => ?_, ?_, persists.present,
      sealed_of_passes entries joins.whole passes, second, rest⟩
    · rw [persists.address, keys_bindOnce done]
      exact joins.free
    · obtain ⟨old, before, passed⟩ := ((settles_bindOnce concepts).ok done).2 key x held
      rw [persists.address]
      exact grounded_of_passes done joins.others (joins.others key old before) passed
    · rw [persists.address]
      exact grounded_of_passes done joins.others joins.own passes

/-- Where nothing is open with a new entry, nothing is open without. -/
theorem eq_of_unbound_insert {passes : Nat} (free : address ∉ concepts.keys)
    (done : bindWithin passes concepts = .ok final)
    (none : unbound (concepts.insert address c) = []) : final = concepts := by
  rcases bindWithin_cases done with ⟨_, same⟩ | ⟨left, _⟩
  · exact same
  · obtain ⟨⟨key, x⟩, member⟩ := List.exists_mem_of_ne_nil _ left
    obtain ⟨held, seen⟩ := mem_unbound.mp member
    have kept : (concepts.insert address c).get? key = some x := by
      rw [get?_insert, if_neg, held]
      rintro rfl
      exact free (mem_keys_of_get? held)
    cases (unbound_eq_nil.mp none key x kept).symm.trans seen

/-- A run can be taken one pass further, in which nothing changes if it has ended. -/
theorem Outstanding.exists_step {rank : String → Nat} {passed passes : Nat}
    (outstanding : Outstanding rank passed concepts)
    (done : bindWithin passes concepts = .ok final) :
    ∃ next later fewer, bindOnce concepts = .ok next ∧ Outstanding rank later next ∧
      bindWithin fewer next = .ok final := by
  rcases bindWithin_cases done with ⟨none, rfl⟩ | ⟨_, fewer, next, _, once, rest⟩
  · refine ⟨final, passed, passes, ?_, outstanding, done⟩
    rw [bindOnce, none]
    rfl
  · exact ⟨next, passed + 1, fewer, once, outstanding.step once, rest⟩

/-- The passes with the new concept never fail over a call. -/
theorem Joins.settles_bindWithin {rank : String → Nat} {passed passes : Nat} (more : Nat)
    (joins : Joins concepts final c) (outstanding : Outstanding rank passed concepts)
    (done : bindWithin passes concepts = .ok final) (closed : final.Closed)
    (settled : final.Settled) :
    Settles (bindWithin more (concepts.insert c.address c))
      (fun bound => ∃ made, made.address = c.address ∧ bound = final.insert c.address made)
      fun e => ¬ e.IsInvalidCall := by
  induction more generalizing passed passes concepts c with
  | zero =>
    rw [bindWithin]
    split
    · next none => exact ⟨c, rfl, by rw [eq_of_unbound_insert joins.free done none]⟩
    · exact id
  | succ more ih =>
    rw [bindWithin]
    split
    · next none =>
      exact ⟨c, rfl, by rw [eq_of_unbound_insert joins.free done (List.isEmpty_iff.mp none)]⟩
    · obtain ⟨next, later, fewer, once, ahead, rest⟩ := outstanding.exists_step done
      obtain ⟨made, same, step, joined⟩ := joins.step outstanding.whole
        (outstanding.finishes done closed settled) (keys_bindWithin done) once
      rw [step, ← same]
      exact ih joined ahead rest

/-- A new concept is bound last, after everything that it refers to. -/
theorem Joins.outstanding {rank : String → Nat} (joins : Joins concepts final c)
    (entries : concepts.Sealed) (bounded : ∀ key, rank key ≤ concepts.size)
    (lower : ∀ key target, concepts.Refers key target → rank target < rank key) :
    Outstanding (fun key => if key = c.address then concepts.size + 1 else rank key) 0
      (concepts.insert c.address c) := by
  have grounded (key : String) (x : Concept)
      (held : (concepts.insert c.address c).get? key = some x) :
      x.Grounded concepts c.address ∧ x.Throughout Concept.Sealed := by
    rw [get?_insert] at held
    split at held
    · cases held
      exact ⟨joins.own, joins.whole⟩
    · exact ⟨joins.others key x held, entries key x held⟩
  have descends (key target : String) (refers : (concepts.insert c.address c).Refers key target) :
      (if target = c.address then concepts.size + 1 else rank target) <
        if key = c.address then concepts.size + 1 else rank key := by
    obtain ⟨x, held, p, reaches, missing, rfl⟩ := refers
    obtain ⟨spares, e, found⟩ := (grounded key x held).1 p reaches missing
    have declared := mem_keys_of_get? (resolve_eq_ok.mp found)
    have old : SemanticQuery.qualify concepts.contains p.address ≠ c.address :=
      fun same => joins.free (same ▸ declared)
    rw [(resolve_insert (e := e) spares).1, if_neg old]
    rw [get?_insert] at held
    split at held
    · next new =>
      rw [if_pos new]
      exact Nat.lt_succ_of_le (bounded _)
    · next differs =>
      rw [if_neg differs]
      exact lower key _ ⟨x, held, p, reaches, missing, rfl⟩
  refine ⟨fun key x held => (grounded key x held).2, fun key x held p reaches missing => ?_,
    descends, fun key x held _ => ⟨Nat.zero_le _, descends key⟩⟩
  obtain ⟨spares, e, found⟩ := (grounded key x held).1 p reaches missing
  exact ⟨e, (resolve_insert spares).2.mpr found⟩

/-- Entries are bound with a new concept beside them as they are without. -/
theorem Joins.exists_bind (joins : Joins concepts final c) (entries : concepts.Sealed)
    (settled : concepts.Settled) (done : bind concepts = .ok final) (closed : final.Closed) :
    ∃ made, made.address = c.address ∧
      bind (concepts.insert c.address c) = .ok (final.insert c.address made) := by
  obtain ⟨rank, bounded, start⟩ := exists_outstanding entries (resolves_of_closed done closed)
    (acyclic_of_closed done closed)
  have last : final.Settled :=
    bindWithin_keeps NameMap.Settled (fun _ _ => settled_bindOnce) settled done
  have runs := joins.settles_bindWithin ((concepts.insert c.address c).size + 1) start done closed
    last
  have enough (key : String) : (if key = c.address then concepts.size + 1 else rank key) <
      0 + ((concepts.insert c.address c).size + 1) := by
    have := bounded key
    rw [size_insert joins.free]
    split <;> omega
  have ends := (joins.outstanding entries bounded start.lower).settles_bindWithin enough
  cases result : bind (concepts.insert c.address c) with
  | ok bound =>
    obtain ⟨made, same, rfl⟩ := runs.ok result
    exact ⟨made, same, rfl⟩
  | error e => exact absurd (ends.error result) (runs.error result)

end Builder

end SemanticQuery
