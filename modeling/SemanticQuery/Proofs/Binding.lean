import Mathlib.Data.Finset.Card
import SemanticQuery.Catalog.Builder
import SemanticQuery.Proofs.NameMaps
import SemanticQuery.Proofs.Placeholders

/-!
Binding of a whole catalog. Every pass puts the entries as they are in the place of the placeholders
in the others, so that each reference is followed one step further. An entry is done when no chain
of references from it is longer than the passes before, and entries that refer to each other in a
circle are never done.
-/

namespace SemanticQuery

namespace NameMap

variable {concepts next : NameMap Concept} {key target : String}

/-- An entry refers to the entry that a placeholder in it stands for. -/
def Refers (concepts : NameMap Concept) (key target : String) : Prop :=
  ∃ c, concepts.get? key = some c ∧ ∃ p, c.Reaches p ∧ p.isPlaceholder = true ∧
    SemanticQuery.qualify concepts.contains p.address = target

/-- Every placeholder in an entry stands for some entry. -/
def Resolves (concepts : NameMap Concept) : Prop :=
  ∀ key c, concepts.get? key = some c → ∀ p, c.Reaches p → p.isPlaceholder = true →
    ∃ e, concepts.resolve p.address = .ok e

/-- No entry refers to itself through others. -/
def Acyclic (concepts : NameMap Concept) : Prop :=
  ∀ key, ¬ Relation.TransGen concepts.Refers key key

/-- No derivation of a kind is reached from an entry. -/
def Lacks (concepts : NameMap Concept) (kind : Derivation) : Prop :=
  ∀ key c, concepts.get? key = some c → ∀ x, c.Reaches x → x.derivation ≠ kind

/-- No placeholder is seen in aligned selects that are reached from an entry. -/
def Sealed (concepts : NameMap Concept) : Prop :=
  ∀ key c, concepts.get? key = some c → ∀ x, c.Reaches x → x.Sealed

theorem resolve_eq_ok {reference : String} {e : Concept} :
    concepts.resolve reference = .ok e ↔
      concepts.get? (SemanticQuery.qualify concepts.contains reference) = some e := by
  unfold NameMap.resolve
  dsimp only
  split
  · next held => simp [held]
  · next absent => simp [absent]

theorem mem_keys_of_get? {m : NameMap α} {value : α} (held : m.get? key = some value) :
    key ∈ m.keys :=
  List.mem_map_of_mem (mem_entries_of_get? held)

theorem exists_get?_of_mem_keys {m : NameMap α} (member : key ∈ m.keys) :
    ∃ value, m.get? key = some value := by
  cases held : m.get? key with
  | none => exact absurd member (get?_eq_none_iff.mp held)
  | some value => exact ⟨value, rfl⟩

theorem contains_congr {m : NameMap α} {n : NameMap β} (keys : m.keys = n.keys) :
    m.contains = n.contains := by
  funext name
  rw [Bool.eq_iff_iff, contains_iff, contains_iff, keys]

/-- A reference resolves in all maps with the same keys or in none. -/
theorem exists_resolve_congr (keys : next.keys = concepts.keys) {reference : String} {e : Concept}
    (found : concepts.resolve reference = .ok e) : ∃ e, next.resolve reference = .ok e := by
  have held := mem_keys_of_get? (resolve_eq_ok.mp found)
  rw [← contains_congr keys, ← keys] at held
  obtain ⟨e, held⟩ := exists_get?_of_mem_keys held
  exact ⟨e, resolve_eq_ok.mpr held⟩

theorem Refers.mem_keys (resolves : concepts.Resolves) (refers : concepts.Refers key target) :
    target ∈ concepts.keys := by
  obtain ⟨c, held, p, reaches, missing, rfl⟩ := refers
  obtain ⟨e, found⟩ := resolves key c held p reaches missing
  exact mem_keys_of_get? (resolve_eq_ok.mp found)

/-- Without filters a reference that is reached from an entry is seen in it. -/
theorem Lacks.seen (unfiltered : concepts.Lacks .filter) {c p : Concept}
    (held : concepts.get? key = some c) (reaches : c.Reaches p) (missing : p.isPlaceholder = true) :
    c.hasPlaceholders = true :=
  Concept.hasPlaceholders_of_reaches (unfiltered key c held) reaches
    (Concept.hasPlaceholders_iff.mpr (.inr (.inl missing)))

/-- The entries can be ranked such that each refers to entries of lower rank only. -/
theorem exists_rank (resolves : concepts.Resolves) (acyclic : concepts.Acyclic) :
    ∃ rank : String → Nat, (∀ key, rank key ≤ concepts.size) ∧
      ∀ key target, concepts.Refers key target → rank target < rank key := by
  classical
  -- the rank is the number of entries that are referred to, directly or through others
  let below (key : String) : Finset String :=
    concepts.keys.toFinset.filter fun target => Relation.TransGen concepts.Refers key target
  refine ⟨fun key => (below key).card, fun key => ?_, fun key target refers => ?_⟩
  · calc (below key).card ≤ concepts.keys.toFinset.card := Finset.card_filter_le _ _
      _ ≤ concepts.keys.length := List.toFinset_card_le _
      _ = concepts.size := by simp [keys, size]
  · refine Finset.card_lt_card ((Finset.ssubset_iff_of_subset ?_).mpr ⟨target, ?_, ?_⟩)
    · intro other member
      simp only [below, Finset.mem_filter] at member ⊢
      exact ⟨member.1, .head refers member.2⟩
    · simp only [below, Finset.mem_filter, List.mem_toFinset]
      exact ⟨refers.mem_keys resolves, .single refers⟩
    · simp only [below, Finset.mem_filter, not_and]
      exact fun _ => acyclic target

end NameMap

namespace Builder

open NameMap

variable {concepts next : NameMap Concept}

/-- What becomes of an entry in a pass. -/
def Passes (concepts : NameMap Concept) (c bound : Concept) : Prop :=
  c.hasPlaceholders = true ∧ c.rebind concepts.resolve = .ok bound ∨
    c.hasPlaceholders = false ∧ bound = c

theorem settles_foldlM_rebind {resolve : Resolver} {entries : List (String × Concept)}
    (distinct : (entries.map (·.1)).Nodup) (m : NameMap Concept) :
    Settles
      (entries.foldlM
        (fun bound entry => return bound.insert entry.1 (← entry.2.rebind resolve)) m)
      (fun bound =>
        (∀ entry ∈ entries, ∃ c, bound.get? entry.1 = some c ∧ entry.2.rebind resolve = .ok c) ∧
          ∀ key, key ∉ entries.map (·.1) → bound.get? key = m.get? key)
      fun e => ∃ entry ∈ entries, entry.2.rebind resolve = .error e := by
  induction entries generalizing m with
  | nil => exact ⟨by simp, fun _ _ => rfl⟩
  | cons first rest ih =>
    obtain ⟨new, distinct⟩ := List.nodup_cons.mp distinct
    rw [List.foldlM_cons]
    cases done : first.2.rebind resolve with
    | error e => exact ⟨first, List.mem_cons_self, done⟩
    | ok c =>
      refine (ih distinct (m.insert first.1 c)).weaken (fun bound later => ?_) fun e fails => ?_
      · refine ⟨List.forall_mem_cons.mpr ⟨⟨c, ?_, done⟩, later.1⟩, fun key absent => ?_⟩
        · rw [later.2 first.1 new, get?_insert, if_pos rfl]
        · rw [List.map_cons, List.mem_cons, not_or] at absent
          rw [later.2 key absent.2, get?_insert, if_neg absent.1]
      · obtain ⟨entry, member, fails⟩ := fails
        exact ⟨entry, List.mem_cons_of_mem _ member, fails⟩

theorem mem_unbound {key : String} {c : Concept} :
    (key, c) ∈ unbound concepts ↔ concepts.get? key = some c ∧ c.hasPlaceholders = true := by
  rw [unbound, List.mem_filter]
  exact and_congr_left fun _ => mem_entries_iff

/-- A pass keeps the keys and changes just the entries with placeholders. -/
theorem settles_bindOnce (concepts : NameMap Concept) :
    Settles (bindOnce concepts)
      (fun next => next.keys = concepts.keys ∧ ∀ key bound, next.get? key = some bound →
        ∃ c, concepts.get? key = some c ∧ Passes concepts c bound)
      fun e => ∃ key c, concepts.get? key = some c ∧ c.hasPlaceholders = true ∧
        c.rebind concepts.resolve = .error e := by
  have distinct : ((unbound concepts).map (·.1)).Nodup := by
    have keys : concepts.keys.Nodup := (increasing_keys concepts).imp String.ne_of_lt
    exact keys.sublist (List.filter_sublist.map _)
  refine (settles_foldlM_rebind distinct concepts).weaken (fun next rebound => ?_) fun e fails => ?_
  · obtain ⟨changed, kept⟩ := rebound
    have entries (key : String) (c : Concept) (held : concepts.get? key = some c) :
        ∃ bound, next.get? key = some bound ∧ Passes concepts c bound := by
      cases seen : c.hasPlaceholders with
      | true =>
        obtain ⟨bound, made, done⟩ := changed (key, c) (mem_unbound.mpr ⟨held, seen⟩)
        exact ⟨bound, made, .inl ⟨seen, done⟩⟩
      | false =>
        refine ⟨c, (kept key fun member => ?_).trans held, .inr ⟨seen, rfl⟩⟩
        obtain ⟨⟨_, other⟩, listed, rfl⟩ := List.mem_map.mp member
        obtain ⟨same, placeholders⟩ := mem_unbound.mp listed
        cases held.symm.trans same
        cases seen.symm.trans placeholders
    have keys : next.keys = concepts.keys := by
      refine Names.eq_of_increasing (increasing_keys _) (increasing_keys _) fun key => ?_
      constructor
      · intro member
        by_contra absent
        have untouched := kept key fun listed =>
          absent (List.map_subset _ (by simp [unbound]) listed)
        rw [get?_eq_none_iff.mpr absent, get?_eq_none_iff] at untouched
        exact untouched member
      · intro member
        obtain ⟨c, held⟩ := exists_get?_of_mem_keys member
        obtain ⟨bound, made, _⟩ := entries key c held
        exact mem_keys_of_get? made
    refine ⟨keys, fun key bound made => ?_⟩
    have member := mem_keys_of_get? made
    rw [keys] at member
    obtain ⟨c, held⟩ := exists_get?_of_mem_keys member
    obtain ⟨other, same, passes⟩ := entries key c held
    cases made.symm.trans same
    exact ⟨c, held, passes⟩
  · obtain ⟨⟨key, c⟩, member, fails⟩ := fails
    obtain ⟨held, seen⟩ := mem_unbound.mp member
    exact ⟨key, c, held, seen, fails⟩

section Step

variable {key target : String} (done : bindOnce concepts = .ok next)

include done

theorem keys_bindOnce : next.keys = concepts.keys := ((settles_bindOnce concepts).ok done).1

theorem qualify_bindOnce (reference : String) :
    SemanticQuery.qualify next.contains reference =
      SemanticQuery.qualify concepts.contains reference := by
  rw [contains_congr (keys_bindOnce done)]

/-- What is reached after a pass was reached before it from an entry that had no placeholders, is
reached from an entry that was referred to, or is no placeholder and was bound itself. -/
theorem reaches_bindOnce {bound y : Concept} (made : next.get? key = some bound)
    (reaches : bound.Reaches y) :
    (bound.hasPlaceholders = false ∧ concepts.get? key = some bound) ∨
      (∃ target e, concepts.Refers key target ∧ concepts.get? target = some e ∧ e.Reaches y) ∨
      ∃ c x, concepts.get? key = some c ∧ c.Reaches x ∧ x.isPlaceholder = false ∧
        x.rebind concepts.resolve = .ok y := by
  obtain ⟨c, held, passes⟩ := ((settles_bindOnce concepts).ok done).2 key bound made
  rcases passes with ⟨_, rebound⟩ | ⟨clean, rfl⟩
  · refine .inr ?_
    rcases Concept.reaches_rebind reaches rebound with
      ⟨p, e, within, missing, found, reaches⟩ | ⟨x, within, present, rebound⟩
    · exact .inl ⟨_, e, ⟨c, held, p, within, missing, rfl⟩, resolve_eq_ok.mp found, reaches⟩
    · exact .inr ⟨c, x, held, within, present, rebound⟩
  · exact .inl ⟨clean, held⟩

/-- A reference after a pass is one of an entry without placeholders, or was two references in a
row before. -/
theorem refers_bindOnce (refers : next.Refers key target) :
    (concepts.Refers key target ∧ ∃ c, next.get? key = some c ∧ c.hasPlaceholders = false) ∨
      ∃ middle, concepts.Refers key middle ∧ concepts.Refers middle target := by
  obtain ⟨bound, made, p, reaches, missing, same⟩ := refers
  rw [qualify_bindOnce done] at same
  rcases reaches_bindOnce done made reaches with
    ⟨clean, held⟩ | ⟨middle, e, first, held, within⟩ | ⟨c, x, _, _, present, rebound⟩
  · exact .inl ⟨⟨bound, held, p, reaches, missing, same⟩, bound, made, clean⟩
  · exact .inr ⟨middle, first, e, held, p, within, missing, same⟩
  · rw [Concept.isPlaceholder_rebind present rebound] at missing
    cases missing

theorem lacks_bindOnce (unfiltered : concepts.Lacks .filter) : next.Lacks .filter := by
  intro key bound made y reaches same
  rcases reaches_bindOnce done made reaches with
    ⟨_, held⟩ | ⟨target, e, _, held, within⟩ | ⟨c, x, held, within, present, rebound⟩
  · exact unfiltered key bound held y reaches same
  · exact unfiltered target e held y within same
  · exact unfiltered key c held x within ((Concept.derivation_rebind present rebound).2 same)

theorem sealed_bindOnce (whole : concepts.Sealed) : next.Sealed := by
  intro key bound made y reaches
  rcases reaches_bindOnce done made reaches with
    ⟨_, held⟩ | ⟨target, e, _, held, within⟩ | ⟨c, x, held, within, present, rebound⟩
  · exact whole key bound held y reaches
  · exact whole target e held y within
  · exact (whole key c held x within).rebind present rebound

theorem resolves_bindOnce (resolves : concepts.Resolves) : next.Resolves := by
  intro key bound made y reaches missing
  rcases reaches_bindOnce done made reaches with
    ⟨_, held⟩ | ⟨target, e, _, held, within⟩ | ⟨c, x, held, within, present, rebound⟩
  · obtain ⟨e, found⟩ := resolves key bound held y reaches missing
    exact exists_resolve_congr (keys_bindOnce done) found
  · obtain ⟨e, found⟩ := resolves target e held y within missing
    exact exists_resolve_congr (keys_bindOnce done) found
  · rw [Concept.isPlaceholder_rebind present rebound] at missing
    cases missing

end Step

/-- What holds before a pass over entries whose references go down in rank. An entry with
placeholders outranks the passes before, and outranks what it refers to by more than these. -/
structure Outstanding (rank : String → Nat) (passes : Nat) (concepts : NameMap Concept) :
    Prop where
  whole : concepts.Sealed
  resolves : concepts.Resolves
  lower : ∀ key target, concepts.Refers key target → rank target < rank key
  seen : ∀ key c, concepts.get? key = some c → c.hasPlaceholders = true → passes ≤ rank key ∧
    ∀ target, concepts.Refers key target → rank target + passes < rank key

variable {rank : String → Nat} {passes : Nat}

theorem Outstanding.step (outstanding : Outstanding rank passes concepts)
    (done : bindOnce concepts = .ok next) : Outstanding rank (passes + 1) next := by
  refine ⟨sealed_bindOnce done outstanding.whole, resolves_bindOnce done outstanding.resolves,
    fun key target refers => ?_, fun key bound made seen => ?_⟩
  · rcases refers_bindOnce done refers with ⟨same, _⟩ | ⟨middle, first, second⟩
    · exact outstanding.lower key target same
    · exact (outstanding.lower middle target second).trans (outstanding.lower key middle first)
  · obtain ⟨c, held, pass⟩ := ((settles_bindOnce concepts).ok done).2 key bound made
    rcases pass with ⟨before, rebound⟩ | ⟨clean, rfl⟩
    swap
    · rw [clean] at seen
      cases seen
    obtain ⟨enough, gap⟩ := outstanding.seen key c held before
    refine ⟨?_, fun target refers => ?_⟩
    · -- an entry of the rank of this pass refers to nothing, so that the pass finishes it
      by_contra few
      have present : ∀ x, c.Reaches x → x.isPlaceholder = false := by
        intro p reaches
        refine Bool.eq_false_iff.mpr fun missing => ?_
        have := gap _ ⟨c, held, p, reaches, missing, rfl⟩
        omega
      rw [Concept.hasPlaceholders_rebind (outstanding.whole key c held) present rebound] at seen
      cases seen
    · rcases refers_bindOnce done refers with ⟨_, other, same, clean⟩ | ⟨middle, first, second⟩
      · cases made.symm.trans same
        rw [clean] at seen
        cases seen
      · have := gap middle first
        have := outstanding.lower middle target second
        omega

theorem unbound_eq_nil :
    unbound concepts = [] ↔ ∀ key c, concepts.get? key = some c → c.hasPlaceholders = false := by
  rw [List.eq_nil_iff_forall_not_mem]
  constructor
  · intro none key c held
    exact Bool.eq_false_iff.mpr fun seen => none (key, c) (mem_unbound.mpr ⟨held, seen⟩)
  · rintro clean ⟨key, c⟩ member
    obtain ⟨held, seen⟩ := mem_unbound.mp member
    rw [clean key c held] at seen
    cases seen

/-- The passes are enough for entries that they outnumber in rank. -/
theorem Outstanding.settles_bindWithin {more : Nat}
    (outstanding : Outstanding rank passes concepts)
    (enough : ∀ key, rank key < passes + more) :
    Settles (bindWithin more concepts)
      (fun bound => bound.keys = concepts.keys ∧
        ∀ key c, bound.get? key = some c → c.hasPlaceholders = false)
      (·.IsInvalidCall) := by
  induction more generalizing passes concepts with
  | zero =>
    have clean : unbound concepts = [] := by
      refine unbound_eq_nil.mpr fun key c held => Bool.eq_false_iff.mpr fun seen => ?_
      have := (outstanding.seen key c held seen).1
      have := enough key
      omega
    rw [bindWithin, clean]
    exact ⟨rfl, unbound_eq_nil.mp clean⟩
  | succ more ih =>
    rw [bindWithin]
    split
    · next clean => exact ⟨rfl, unbound_eq_nil.mp (List.isEmpty_iff.mp clean)⟩
    · cases done : bindOnce concepts with
      | ok next =>
        refine (ih (outstanding.step done) fun key => ?_).weaken (fun bound clean => ?_)
          fun _ invalid => invalid
        · have := enough key
          omega
        · exact ⟨clean.1.trans (keys_bindOnce done), clean.2⟩
      | error e =>
        obtain ⟨key, c, held, _, failed⟩ := (settles_bindOnce concepts).error done
        rcases Concept.blames_of_rebind failed with invalid | ⟨p, reaches, missing, absent⟩
        · exact invalid
        · obtain ⟨_, found⟩ := outstanding.resolves key c held p reaches missing
          cases absent.symm.trans found

/-- Entries whose references resolve and do not lead in a circle have a rank from which the passes
start. -/
theorem exists_outstanding (whole : concepts.Sealed) (resolves : concepts.Resolves)
    (acyclic : concepts.Acyclic) :
    ∃ rank : String → Nat, (∀ key, rank key ≤ concepts.size) ∧ Outstanding rank 0 concepts := by
  obtain ⟨rank, bounded, lower⟩ := exists_rank resolves acyclic
  exact ⟨rank, bounded, whole, resolves, lower, fun key _ _ _ => ⟨Nat.zero_le _, lower key⟩⟩

theorem settles_bind_of_acyclic (whole : concepts.Sealed) (resolves : concepts.Resolves)
    (acyclic : concepts.Acyclic) :
    Settles (bind concepts)
      (fun bound => bound.keys = concepts.keys ∧
        ∀ key c, bound.get? key = some c → c.hasPlaceholders = false)
      (·.IsInvalidCall) := by
  obtain ⟨rank, bounded, start⟩ := exists_outstanding whole resolves acyclic
  refine start.settles_bindWithin fun key => ?_
  have := bounded key
  omega

section Converse

variable {bound : NameMap Concept}

/-- A run that succeeds makes a pass over an entry with a reference, which takes over all that the
entry referred to reaches. -/
theorem exists_bindOnce {key : String} {c p : Concept} (unfiltered : concepts.Lacks .filter)
    (done : bindWithin passes concepts = .ok bound) (held : concepts.get? key = some c)
    (reaches : c.Reaches p) (missing : p.isPlaceholder = true) :
    ∃ more next, passes = more + 1 ∧ bindOnce concepts = .ok next ∧
      bindWithin more next = .ok bound ∧
      ∃ made e, next.get? key = some made ∧ concepts.resolve p.address = .ok e ∧
        ∀ y, e.Reaches y → made.Reaches y := by
  have seen := unfiltered.seen held reaches missing
  have some : unbound concepts ≠ [] := List.ne_nil_of_mem (mem_unbound.mpr ⟨held, seen⟩)
  cases passes with
  | zero =>
    rw [bindWithin] at done
    split at done
    · next none => exact absurd none some
    · cases done
  | succ more =>
    rw [bindWithin, if_neg (by simpa using some)] at done
    obtain ⟨next, once, rest⟩ := bind_eq_ok.mp done
    have member := mem_keys_of_get? held
    rw [← keys_bindOnce once] at member
    obtain ⟨made, placed⟩ := exists_get?_of_mem_keys member
    obtain ⟨other, same, pass⟩ := ((settles_bindOnce concepts).ok once).2 key made placed
    cases held.symm.trans same
    rcases pass with ⟨_, rebound⟩ | ⟨clean, _⟩
    · obtain ⟨e, found, takes⟩ := Concept.exists_of_reaches_placeholder reaches missing rebound
      exact ⟨more, next, rfl, once, rest, made, e, placed, found, takes⟩
    · rw [seen] at clean
      cases clean

theorem resolves_of_bindWithin (unfiltered : concepts.Lacks .filter)
    (done : bindWithin passes concepts = .ok bound) : concepts.Resolves := by
  intro key c held p reaches missing
  obtain ⟨_, _, _, _, _, _, e, _, found, _⟩ :=
    exists_bindOnce unfiltered done held reaches missing
  exact ⟨e, found⟩

/-- Entries of which each refers to one of them are never done. -/
theorem bindWithin_ne_of_circle {circle : String → Prop} (unfiltered : concepts.Lacks .filter)
    (closed : ∀ key, circle key → ∃ target, circle target ∧ concepts.Refers key target)
    {key : String} (start : circle key) : bindWithin passes concepts ≠ .ok bound := by
  induction passes generalizing concepts with
  | zero =>
    intro done
    obtain ⟨_, _, c, held, p, reaches, missing, _⟩ := closed key start
    obtain ⟨_, _, impossible, _⟩ := exists_bindOnce unfiltered done held reaches missing
    cases impossible
  | succ passes ih =>
    intro done
    -- each entry of the circle takes over the references of the next one
    have follow : ∀ key, circle key → ∃ next target, circle target ∧ bindOnce concepts = .ok next ∧
        bindWithin passes next = .ok bound ∧ next.Refers key target := by
      intro key member
      obtain ⟨middle, also, c, held, p, reaches, missing, rfl⟩ := closed key member
      obtain ⟨_, next, same, once, rest, made, e, placed, found, takes⟩ :=
        exists_bindOnce unfiltered done held reaches missing
      cases same
      obtain ⟨target, further, other, declared, q, within, absent, rfl⟩ := closed _ also
      cases declared.symm.trans (resolve_eq_ok.mp found)
      exact ⟨next, _, further, once, rest, made, placed, q, takes q within, absent,
        qualify_bindOnce once _⟩
    obtain ⟨next, _, _, once, rest, _⟩ := follow key start
    refine ih (lacks_bindOnce once unfiltered) (fun key member => ?_) rest
    obtain ⟨other, target, also, again, _, refers⟩ := follow key member
    cases once.symm.trans again
    exact ⟨target, also, refers⟩

end Converse

/-- A catalog without aligned selects is bound, unless a call does not fit its signature, if its
references resolve and do not lead in a circle. Without filters it is bound only then. -/
theorem bind_resolves {concepts : NameMap Concept} (plain : concepts.Lacks .multiSelect) :
    (concepts.Resolves → concepts.Acyclic →
      Settles (bind concepts)
        (fun bound => bound.keys = concepts.keys ∧
          ∀ key c, bound.get? key = some c → c.hasPlaceholders = false)
        (·.IsInvalidCall)) ∧
    (concepts.Lacks .filter → ∀ bound, bind concepts = .ok bound →
      concepts.Resolves ∧ concepts.Acyclic) := by
  refine ⟨fun resolves acyclic => ?_, fun unfiltered bound done => ⟨?_, fun key circle => ?_⟩⟩
  · have whole : concepts.Sealed := fun key c held x reaches aligned =>
      absurd aligned (plain key c held x reaches)
    exact settles_bind_of_acyclic whole resolves acyclic
  · exact resolves_of_bindWithin unfiltered done
  · have closed (key : String) (circle : Relation.TransGen concepts.Refers key key) :
        ∃ target, Relation.TransGen concepts.Refers target target ∧ concepts.Refers key target := by
      obtain ⟨target, first, back⟩ := Relation.TransGen.head'_iff.mp circle
      exact ⟨target, .tail' back first, first⟩
    exact bindWithin_ne_of_circle unfiltered closed circle done

end Builder

/-- Whether all that is reached is as stated and lies within so many steps. -/
def Concept.reachesOnly (holds : Concept → Bool) : (steps : Nat) → Concept → Bool
  | 0, _ => false
  | steps + 1, c => holds c && c.mentions.all (reachesOnly holds steps)

theorem Concept.of_reachesOnly {holds : Concept → Bool} {steps : Nat} {c x : Concept}
    (checked : c.reachesOnly holds steps = true) (reaches : c.Reaches x) : holds x = true := by
  induction reaches using Relation.ReflTransGen.head_induction_on generalizing steps with
  | refl =>
    cases steps with
    | zero => cases checked
    | succ steps => exact (Bool.and_eq_true_iff.mp checked).1
  | head member _ ih =>
    cases steps with
    | zero => cases checked
    | succ steps =>
      exact ih (List.all_eq_true.mp (Bool.and_eq_true_iff.mp checked).2 _ member)

theorem NameMap.lacks_of_reachesOnly {concepts : NameMap Concept} {kind : Derivation} (steps : Nat)
    (checked : concepts.values.all (·.reachesOnly (·.derivation != kind) steps) = true) :
    concepts.Lacks kind := by
  intro key c held x reaches
  have listed := List.mem_map_of_mem (f := Prod.snd) (mem_entries_of_get? held)
  simpa using Concept.of_reachesOnly (List.all_eq_true.mp checked c listed) reaches

namespace Bills

def bill : Concept := .key "bill" .integer

/-- Declared before the bill that it belongs to. -/
def amount : Concept := .property "amount" .float [.placeholder "local" "bill"]

/-- Declared before the amount that it is computed from. -/
def total : Concept :=
  .derive "total" .auto
    (.call ⟨.sum, [.concept (.placeholder "local" "amount")], .unknown, .metric⟩)

def concepts : NameMap Concept := .ofList ([total, amount, bill].map fun c => (c.address, c))

end Bills

theorem Builder.bind_resolves_bills :
    Bills.concepts.Lacks .multiSelect ∧ Bills.concepts.Resolves ∧ Bills.concepts.Acyclic ∧
      Bills.total.hasPlaceholders = true ∧
      ∃ bound, Builder.bind Bills.concepts = .ok bound ∧
        ∀ key c, bound.get? key = some c → c.hasPlaceholders = false := by
  have plain : Bills.concepts.Lacks .multiSelect :=
    NameMap.lacks_of_reachesOnly 2 (by decide +kernel)
  have unfiltered : Bills.concepts.Lacks .filter :=
    NameMap.lacks_of_reachesOnly 2 (by decide +kernel)
  have runs : Settles (Builder.bind Bills.concepts) (fun _ => True) fun _ => False := by
    decide +kernel
  obtain ⟨bound, done, _⟩ := runs.exists_ok
  obtain ⟨binds, only⟩ := Builder.bind_resolves plain
  obtain ⟨resolves, acyclic⟩ := only unfiltered bound done
  exact ⟨plain, resolves, acyclic, by decide +kernel, bound, done,
    ((binds resolves acyclic).ok done).2⟩

namespace Bills

/-- A reference to the bill that names a key of its own, which is declared nowhere. -/
def owned : Concept :=
  (Concept.placeholder "local" "bill").withKeys [.placeholder "local" "customer"]

def discount : Concept := .property "discount" .float [owned]

def discounted : NameMap Concept := .ofList ([discount, bill].map fun c => (c.address, c))

end Bills

/-- What hangs on a placeholder goes with it, whether it resolves or not. -/
theorem Builder.bind_discards_keys :
    Bills.discounted.get? "local.discount" = some Bills.discount ∧
      Bills.owned ∈ Bills.discount.keys ∧
      (∃ p ∈ Bills.owned.keys, p.isPlaceholder = true ∧
        ∀ e, Bills.discounted.resolve p.address ≠ .ok e) ∧
      ∃ bound, Builder.bind Bills.discounted = .ok bound := by
  have undeclared : Settles (Bills.discounted.resolve "local.customer") (fun _ => False)
      fun _ => True := by
    decide +kernel
  have runs : Settles (Builder.bind Bills.discounted) (fun _ => True) fun _ => False := by
    decide +kernel
  obtain ⟨bound, done, _⟩ := runs.exists_ok
  refine ⟨rfl, List.mem_singleton.mpr rfl, ⟨_, List.mem_singleton.mpr rfl, rfl, ?_⟩, bound, done⟩
  exact fun e found => undeclared.ok found

end SemanticQuery
