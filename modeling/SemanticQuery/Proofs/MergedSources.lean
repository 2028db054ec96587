import SemanticQuery.Proofs.Mergers
import SemanticQuery.Proofs.WellFormed

/-!
Where a merger reads its complete outputs. A merger has an output complete if one of its queries
has, but it reads the output where the first query does. So an output that the first query flags and
the second has complete may come to be read, without a flag, from a source that flags it. It is read
from a complete source if and only if a source of that name, in either query, has it complete.
-/

namespace SemanticQuery

namespace Source

def isPartialFor (s : Source) (address : String) : Bool :=
  match s with
  | .datasource d => d.isPartialFor address
  | .query q => q.isPartialFor address

/-- Whether the source puts out every row of a concept. -/
def Completes (s : Source) (address : String) : Prop :=
  s.provides address = true ∧ s.isPartialFor address = false

theorem completes_query {q : Query} {address : String} :
    (Source.query q).Completes address ↔ address ∈ q.completeAddresses :=
  Query.mem_completeAddresses.symm

variable {mergeNested : Query → Query → Except PlanError Query}

/-- Adding a source to sources of different names: if the joint source keeps its name and has what
either source has, nothing else changes. -/
theorem absorb_has (has : Source → Prop) {t : Source} {kept next : List Source}
    (joints : ∀ s ∈ kept, s.name = t.name → ∀ joint, Joint mergeNested s t joint →
      joint.name = s.name ∧ (has joint ↔ has s ∨ has t))
    (apart : (kept.map Source.name).Nodup) (absorbed : t.absorb mergeNested kept = .ok next) :
    (next.map Source.name).Nodup ∧ (∀ s ∈ next, s.name ≠ t.name → s ∈ kept) ∧
      ∀ name, (∃ s ∈ next, s.name = name ∧ has s) ↔ ∃ s ∈ kept ++ [t], s.name = name ∧ has s := by
  rcases absorb_cases absorbed with ⟨new, rfl⟩ | ⟨before, s, joint, after, rfl, same, joins, rfl⟩
  · refine ⟨?_, fun s listed other => ?_, fun _ => Iff.rfl⟩
    · rw [List.map_append, List.map_singleton]
      exact apart.append (by simp) (by simpa using new)
    · rcases List.mem_append.mp listed with old | added
      · exact old
      · exact absurd (congrArg Source.name (List.mem_singleton.mp added)) other
  · obtain ⟨named, both⟩ := joints s (by simp) same joint joins
    refine ⟨by simpa [named] using apart, fun v listed other => ?_, fun name => ?_⟩
    · have moved : v ≠ joint := by
        rintro rfl
        exact other (named.trans same)
      simp only [List.mem_append, List.mem_cons] at listed ⊢
      tauto
    · simp only [List.mem_append, List.mem_cons, List.not_mem_nil, or_false, or_and_right,
        exists_or, exists_eq_left, named, both, ← same, and_or_left]
      grind

/-- Sources of different names are added to others. Those of `base` have not been changed as long as
sources of their names are still to come. -/
theorem foldlM_absorb_has (has : Source → Prop) {ss base kept out : List Source}
    (joints : ∀ s ∈ base, ∀ t ∈ ss, s.name = t.name → ∀ joint, Joint mergeNested s t joint →
      joint.name = s.name ∧ (has joint ↔ has s ∨ has t))
    (distinct : (ss.map Source.name).Nodup) (apart : (kept.map Source.name).Nodup)
    (unchanged : ∀ t ∈ ss, ∀ s ∈ kept, s.name = t.name → s ∈ base)
    (done : ss.foldlM (fun kept incoming => incoming.absorb mergeNested kept) kept = .ok out) :
    (out.map Source.name).Nodup ∧
      ∀ name, (∃ s ∈ out, s.name = name ∧ has s) ↔ ∃ s ∈ kept ++ ss, s.name = name ∧ has s := by
  induction ss generalizing kept with
  | nil =>
    cases done
    exact ⟨apart, fun name => by rw [List.append_nil]⟩
  | cons t ss ih =>
    rw [List.foldlM_cons] at done
    rw [List.map_cons, List.nodup_cons] at distinct
    obtain ⟨next, absorbed, rest⟩ := bind_eq_ok.mp done
    obtain ⟨nodup, others, step⟩ := absorb_has has (fun s member same =>
      joints s (unchanged t List.mem_cons_self s member same) t List.mem_cons_self same)
      apart absorbed
    have stays : ∀ u ∈ ss, ∀ s ∈ next, s.name = u.name → s ∈ base := by
      intro u member s listed same
      have other : s.name ≠ t.name := by
        intro equal
        exact distinct.1 (List.mem_map.mpr ⟨u, member, same.symm.trans equal⟩)
      exact unchanged u (List.mem_cons_of_mem t member) s (others s listed other) same
    obtain ⟨final, run⟩ := ih (fun s own u member => joints s own u (List.mem_cons_of_mem t member))
      distinct.2 nodup stays rest
    refine ⟨final, fun name => ?_⟩
    rw [run, ← List.singleton_append, ← List.append_assoc]
    simp only [List.mem_append, or_and_right, exists_or] at step ⊢
    rw [step]

end Source

namespace Query

variable {a b m : Query} {address name : String}

/-- The sources of a query have different names, and sources of one name in two queries are the same
to these: queries keep their name when they are merged, tables have the same columns. -/
structure Matched (a b : Query) : Prop where
  left : (a.sources.map Source.name).Nodup
  right : (b.sources.map Source.name).Nodup
  queries : ∀ q r m, .query q ∈ a.sources → .query r ∈ b.sources → q.identifier = r.identifier →
    q.merge r = .ok m → m.identifier = q.identifier
  tables : ∀ s ∈ a.sources, ∀ t ∈ b.sources, s.name = t.name →
    (∀ q r, s = .query q → t ≠ .query r) → ∀ address,
      s.provides address = t.provides address ∧ s.isPartialFor address = t.isPartialFor address

/-- The merger of two queries has complete what either has. -/
theorem mem_completeAddresses_merge (made : a.merge b = .ok m) :
    address ∈ m.completeAddresses ↔
      address ∈ a.completeAddresses ∨ address ∈ b.completeAddresses := by
  obtain ⟨_, _, sources, _, rfl⟩ := of_merge made
  refine ⟨fun complete => ?_, mem_completeAddresses_merged⟩
  obtain ⟨provided, unflagged⟩ := mem_completeAddresses.mp complete
  by_contra lacking
  obtain ⟨first, second⟩ := not_or.mp lacking
  have flagged {q : Query} (own : q.provides address = true)
      (absent : address ∉ q.completeAddresses) : q.isPartialFor address = true := by
    by_contra full
    exact absent (mem_completeAddresses.mpr ⟨own, by simpa using full⟩)
  have either : a.isPartialFor address = true ∨ b.isPartialFor address = true :=
    (provides_merged.mp provided).imp (flagged · first) (flagged · second)
  rw [isPartialFor_merged_iff.mpr ⟨either, first, second⟩] at unflagged
  cases unflagged

/-- A merged source has a concept, or has it complete, if one of the sources of its name has. -/
theorem Matched.joints (matched : a.Matched b) (address : String) :
    ∀ s ∈ a.sources, ∀ t ∈ b.sources, s.name = t.name → ∀ joint, Source.Joint merge s t joint →
      joint.name = s.name ∧
        (joint.provides address = true ↔ s.provides address = true ∨ t.provides address = true) ∧
          (joint.Completes address ↔ s.Completes address ∨ t.Completes address) := by
  intro s own t other same joint joins
  cases joins with
  | @queries q r _ made =>
    refine ⟨?_, ?_, ?_⟩
    · rw [Source.name, Source.name]
      rw [Source.name, Source.name] at same
      exact matched.queries q r _ own other same made
    · obtain ⟨_, _, sources, _, rfl⟩ := of_merge made
      exact provides_merged
    · simp only [Source.completes_query]
      exact mem_completeAddresses_merge made
  | first single =>
    obtain ⟨provides, flags⟩ := matched.tables s own t other same single address
    simp [Source.Completes, provides, flags]

theorem head?_readFrom_merge (made : a.merge b = .ok m) :
    (m.readFrom address).head? = some name ↔ (a.readFrom address).head? = some name ∨
      a.readFrom address = [] ∧ (b.readFrom address).head? = some name := by
  rw [readFrom_merge made]
  by_cases computed : a.readFrom address = [] <;> simp [computed]

/-- A source of either query becomes the source of its name in the merger. -/
theorem Matched.sources (matched : a.Matched b) (made : a.merge b = .ok m) (address : String) :
    (m.sources.map Source.name).Nodup ∧ ∀ name,
      ((∃ s ∈ m.sources, s.name = name ∧ s.provides address = true) ↔
        ∃ s ∈ a.sources ++ b.sources, s.name = name ∧ s.provides address = true) ∧
      ((∃ s ∈ m.sources, s.name = name ∧ s.Completes address) ↔
        ∃ s ∈ a.sources ++ b.sources, s.name = name ∧ s.Completes address) := by
  obtain ⟨_, _, sources, folded, rfl⟩ := of_merge made
  rw [List.foldlM_append, Source.foldlM_absorb_new (by simpa using matched.left)] at folded
  obtain ⟨distinct, provides⟩ := Source.foldlM_absorb_has (·.provides address = true)
    (fun s own t other same joint joins =>
      have facts := matched.joints address s own t other same joint joins
      ⟨facts.1, facts.2.1⟩)
    matched.right matched.left (fun _ _ _ own _ => own) folded
  obtain ⟨_, completes⟩ := Source.foldlM_absorb_has (·.Completes address)
    (fun s own t other same joint joins =>
      have facts := matched.joints address s own t other same joint joins
      ⟨facts.1, facts.2.2⟩)
    matched.right matched.left (fun _ _ _ own _ => own) folded
  exact ⟨distinct, fun name => ⟨provides name, completes name⟩⟩

/-- What is read from a source is provided by it. -/
def Sourced (q : Query) : Prop :=
  ∀ entry ∈ q.sourceMap.entries, ∀ name ∈ entry.2,
    ∃ s ∈ q.sources, s.name = name ∧ s.provides entry.1 = true

/-- A complete output that is read from a source is read from one that does not flag it. -/
def Faithful (q : Query) : Prop :=
  ∀ address ∈ q.completeAddresses, q.readFrom address ≠ [] →
    ∃ s, q.sourceFor? address = some s ∧ s.isPartialFor address = false

theorem Sourced.provided {q : Query} (sourced : q.Sourced)
    (read : (q.readFrom address).head? = some name) :
    ∃ s ∈ q.sources, s.name = name ∧ s.provides address = true := by
  rw [readFrom] at read
  cases held : q.sourceMap.get? address with
  | none =>
    rw [held] at read
    cases read
  | some names =>
    rw [held] at read
    exact sourced _ (NameMap.mem_entries_of_get? held) name (List.mem_of_head? read)

theorem sourceFor?_eq_some {q : Query} (distinct : (q.sources.map Source.name).Nodup) {s : Source} :
    q.sourceFor? address = some s ↔
      s ∈ q.sources ∧ (q.readFrom address).head? = some s.name := by
  rw [sourceFor?, readFrom]
  rcases q.sourceMap.get? address with _ | _ | ⟨name, names⟩
  · simp
  · simp
  · simp only [Option.getD_some, List.head?_cons, Option.some.injEq]
    constructor
    · intro found
      have named : s.name = name := by simpa using List.find?_some found
      exact ⟨List.mem_of_find?_eq_some found, named.symm⟩
    · rintro ⟨member, rfl⟩
      cases found : q.sources.find? (·.name == s.name) with
      | none => exact absurd (by simp) (List.find?_eq_none.mp found s member)
      | some t =>
        have named : t.name = s.name := by simpa using List.find?_some found
        rw [List.inj_on_of_nodup_map distinct (List.mem_of_find?_eq_some found) member named]

/-- Where names tell sources apart, what is complete is read from a source that has it complete. -/
theorem faithful_iff {q : Query} (distinct : (q.sources.map Source.name).Nodup)
    (provided : ∀ address name, (q.readFrom address).head? = some name →
      ∃ s ∈ q.sources, s.name = name ∧ s.provides address = true) :
    q.Faithful ↔ ∀ address name, address ∈ q.completeAddresses →
      (q.readFrom address).head? = some name →
        ∃ s ∈ q.sources, s.name = name ∧ s.Completes address := by
  constructor
  · intro faithful address name complete read
    have some : q.readFrom address ≠ [] := by
      intro none
      rw [none] at read
      cases read
    obtain ⟨s, source, unflagged⟩ := faithful address complete some
    obtain ⟨member, head⟩ := (sourceFor?_eq_some distinct).mp source
    cases head.symm.trans read
    obtain ⟨t, listed, same, provides⟩ := provided address s.name read
    cases List.inj_on_of_nodup_map distinct listed member same
    exact ⟨s, member, rfl, provides, unflagged⟩
  · intro whole address complete some
    obtain ⟨name, rest, read⟩ := List.exists_cons_of_ne_nil some
    have head : (q.readFrom address).head? = Option.some name := by rw [read, List.head?_cons]
    obtain ⟨s, member, rfl, _, unflagged⟩ := whole address name complete head
    exact ⟨s, (sourceFor?_eq_some distinct).mpr ⟨member, head⟩, unflagged⟩

/-- A concept that one query has complete and the merger reads where the other does. -/
inductive Strays (a b : Query) (address name : String) : Prop
  | left (complete : address ∈ b.completeAddresses) (lacking : address ∉ a.completeAddresses)
      (read : (a.readFrom address).head? = some name)
  | right (complete : address ∈ a.completeAddresses) (computed : a.readFrom address = [])
      (lacking : address ∉ b.completeAddresses) (read : (b.readFrom address).head? = some name)

/-- Queries that read what they have complete from sources that do not flag it have such a merger if
and only if what strays is complete in a source of the name that it is read from. -/
theorem merge_faithful_iff (matched : a.Matched b) (sourced : a.Sourced) (alsoSourced : b.Sourced)
    (faithful : a.Faithful) (alsoFaithful : b.Faithful) (made : a.merge b = .ok m) :
    m.Faithful ↔ ∀ address name, a.Strays b address name →
      ∃ s ∈ a.sources ++ b.sources, s.name = name ∧ s.Completes address := by
  have first := (faithful_iff matched.left fun _ _ => sourced.provided).mp faithful
  have second := (faithful_iff matched.right fun _ _ => alsoSourced.provided).mp alsoFaithful
  have distinct := (matched.sources made "").1
  have provided : ∀ address name, (m.readFrom address).head? = some name →
      ∃ s ∈ m.sources, s.name = name ∧ s.provides address = true := by
    intro address name read
    rw [((matched.sources made address).2 name).1]
    rcases (head?_readFrom_merge made).mp read with own | ⟨_, own⟩
    · obtain ⟨s, member, facts⟩ := sourced.provided own
      exact ⟨s, List.mem_append_left _ member, facts⟩
    · obtain ⟨s, member, facts⟩ := alsoSourced.provided own
      exact ⟨s, List.mem_append_right _ member, facts⟩
  rw [faithful_iff distinct provided]
  simp only [mem_completeAddresses_merge made, head?_readFrom_merge made,
    ((matched.sources made _).2 _).2]
  constructor
  · intro whole address name strays
    cases strays with
    | left complete _ read => exact whole address name (.inr complete) (.inl read)
    | right complete computed _ read =>
      exact whole address name (.inl complete) (.inr ⟨computed, read⟩)
  · intro straying address name complete read
    rcases read with read | ⟨computed, read⟩
    · by_cases own : address ∈ a.completeAddresses
      · obtain ⟨s, member, facts⟩ := first address name own read
        exact ⟨s, List.mem_append_left _ member, facts⟩
      · exact straying address name (.left (complete.resolve_left own) own read)
    · by_cases own : address ∈ b.completeAddresses
      · obtain ⟨s, member, facts⟩ := second address name own read
        exact ⟨s, List.mem_append_right _ member, facts⟩
      · exact straying address name (.right (complete.resolve_right own) computed own read)

end Query

/-- Alike queries over queries match. -/
theorem Query.Mergeable.matched {a b : Query} (mergeable : a.Mergeable b)
    (same : a.identifier = b.identifier) (left : a.Throughout Fits) (right : b.Throughout Fits)
    (nested : ∀ s ∈ a.sources ++ b.sources, s.nested.isEmpty = false) : a.Matched b := by
  obtain ⟨alike, distinct⟩ := mergeable a a.mem_nested_self b b.mem_nested_self same
  have below {q u : Query} {s : Source} (own : s ∈ q.sources) (inside : u ∈ s.nested) :
      u ∈ q.nested := mem_nested.mpr (.inr ⟨s, own, inside⟩)
  refine ⟨distinct, alike.sources ▸ distinct, fun q r m own other named made => ?_,
    fun s own t other _ single => ?_⟩
  · have inside {u v : Query} (member : v ∈ u.nested) : v ∈ (Source.query u).nested := by
      rw [Source.nested]
      exact member
    have merges : q.Mergeable r :=
      mergeable.mono (fun u member => ⟨u, below own (inside member), .refl u⟩)
        fun v member => below other (inside member)
    obtain ⟨joint, merged, resembles, _⟩ := exists_merge merges named
      (fun u member => left u (below own (inside member)))
      fun u member => right u (below other (inside member))
    cases made.symm.trans merged
    exact resembles.shape.identifier
  · have isQuery : ∀ s ∈ a.sources ++ b.sources, ∃ q, s = .query q := by
      intro s member
      cases s with
      | datasource d =>
        have some := nested _ member
        rw [Source.nested] at some
        cases some
      | query q => exact ⟨q, rfl⟩
    obtain ⟨q, rfl⟩ := isQuery s (List.mem_append_left _ own)
    obtain ⟨r, rfl⟩ := isQuery t (List.mem_append_right _ other)
    exact absurd rfl (single q r rfl)

instance : DecidablePred Query.Faithful := fun q =>
  decidable_of_iff
    (∀ address ∈ q.completeAddresses, q.readFrom address ≠ [] →
      (q.sourceFor? address).any (!·.isPartialFor address) = true)
    (by simp [Query.Faithful, Option.any_eq_true])

namespace Survey

def plot : Concept := .key "plot" .integer

def crop : Concept := .metric "crop" .integer

def flights : Datasource :=
  .table "flights" [⟨"plot", plot, []⟩, ⟨"crop", crop, [.incomplete]⟩]

def visits : Datasource := .table "visits" [⟨"plot", plot, []⟩, ⟨"crop", crop, []⟩]

def reading (d : Datasource) (concepts : List Concept) : Node :=
  .of (.select (some d)) concepts concepts [] 0

/-- The crops of flights, joined with some columns of visits. -/
def joined (concepts : List Concept) : Node :=
  .of (.merge []) [plot, crop] [plot, crop]
    [reading flights [plot, crop], reading visits concepts] 0

/-- The name of the joined query, whatever the columns, and what is decided of it. -/
def Named (q : Query) : Prop :=
  q.identifier = "flights_at_plot_join_visits_at_plot_at_plot" ∧ q.Faithful ∧
    ∀ s ∈ q.sources, s.nested.isEmpty = false

instance : DecidablePred Named := fun _ => instDecidableAnd

end Survey

open Survey in
theorem Query.merge_faithful_iff_visits :
    ∃ a b m, (joined [plot, crop]).resolve = .ok a ∧ (joined [plot]).resolve = .ok b ∧
      a.identifier = b.identifier ∧ a.Matched b ∧ a.Sourced ∧ b.Sourced ∧ a.Faithful ∧
      b.Faithful ∧ a.merge b = .ok m ∧ m.Faithful ∧
      ∀ address name, a.Strays b address name →
        ∃ s ∈ a.sources ++ b.sources, s.name = name ∧ s.Completes address := by
  have settled : Settles (joined [plot, crop]).resolve
      (fun a => Named a ∧
        Settles (joined [plot]).resolve
          (fun b => (Named b ∧ a.Mergeable b) ∧ Settles (a.merge b) Faithful fun _ => False)
          fun _ => False)
      fun _ => False := by
    decide +kernel
  obtain ⟨a, resolved, ⟨named, faithful, nested⟩, settled⟩ := settled.exists_ok
  obtain ⟨b, alsoResolved, ⟨⟨alsoNamed, alsoFaithful, alsoNested⟩, mergeable⟩, settled⟩ :=
    settled.exists_ok
  obtain ⟨m, made, whole⟩ := settled.exists_ok
  obtain ⟨wellFormed, fits⟩ := (Node.settles_resolve_fits _).ok resolved
  obtain ⟨alsoWellFormed, alsoFits⟩ := (Node.settles_resolve_fits _).ok alsoResolved
  have same : a.identifier = b.identifier := named.trans alsoNamed.symm
  have matched : a.Matched b := mergeable.matched same fits alsoFits fun s member =>
    (List.mem_append.mp member).elim (nested s) (alsoNested s)
  refine ⟨a, b, m, resolved, alsoResolved, same, matched, wellFormed.named, alsoWellFormed.named,
    faithful, alsoFaithful, made, whole, ?_⟩
  exact (merge_faithful_iff matched wellFormed.named alsoWellFormed.named faithful alsoFaithful
    made).mp whole

open Survey in
/-- The other way round the crop is read, without a flag, from flights that flag it. -/
theorem Query.merge_not_faithful :
    ∃ a b m, (joined [plot]).resolve = .ok a ∧ (joined [plot, crop]).resolve = .ok b ∧
      a.identifier = b.identifier ∧ a.Faithful ∧ b.Faithful ∧ a.merge b = .ok m ∧
      ¬ m.Faithful := by
  have settled : Settles (joined [plot]).resolve
      (fun a => Named a ∧
        Settles (joined [plot, crop]).resolve
          (fun b => Named b ∧ Settles (a.merge b) (¬ ·.Faithful) fun _ => False) fun _ => False)
      fun _ => False := by
    decide +kernel
  obtain ⟨a, resolved, ⟨named, faithful, _⟩, settled⟩ := settled.exists_ok
  obtain ⟨b, alsoResolved, ⟨alsoNamed, alsoFaithful, _⟩, settled⟩ := settled.exists_ok
  obtain ⟨m, made, stray⟩ := settled.exists_ok
  exact ⟨a, b, m, resolved, alsoResolved, named.trans alsoNamed.symm, faithful, alsoFaithful, made,
    stray⟩

end SemanticQuery
