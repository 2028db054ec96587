import SemanticQuery.Proofs.Merging
import SemanticQuery.Proofs.Units

/-!
Mergers of alike queries. Queries of one name that are alike, also in what is nested in them, have a
merger of that name which puts out all that they do. So queries of which each can be merged with
those before it are condensed to queries of different names that stand in for all of them.
-/

namespace SemanticQuery

theorem Condition.both_of_agrees {a b : Option Condition} (agree : agreesOption a b = true) :
    both a b = a := by
  match a, b with
  | none, none => rfl
  | some left, some right =>
    rw [agreesOption] at agree
    rw [both, agree]
    rfl
  | none, some _ => cases agree
  | some _, none => cases agree

namespace Query

/-- Queries that differ at most in their concepts and joins, and in what is nested in them. -/
structure Alike (a b : Query) : Prop where
  grain : a.grain.same b.grain = true
  sourceType : a.sourceType = b.sourceType
  condition : Condition.agreesOption a.condition b.condition = true
  sources : a.sources.map Source.name = b.sources.map Source.name

instance (a b : Query) : Decidable (a.Alike b) :=
  decidable_of_iff
    (a.grain.same b.grain = true ∧ a.sourceType = b.sourceType ∧
      Condition.agreesOption a.condition b.condition = true ∧
        a.sources.map Source.name = b.sources.map Source.name)
    ⟨fun ⟨grain, sourceType, condition, sources⟩ => ⟨grain, sourceType, condition, sources⟩,
      fun alike => ⟨alike.grain, alike.sourceType, alike.condition, alike.sources⟩⟩

/-- All that the name of a query is made from is the same. -/
structure SameShape (a b : Query) : Prop where
  grain : a.grain = b.grain
  sourceType : a.sourceType = b.sourceType
  condition : a.condition = b.condition
  sources : a.sources.map Source.name = b.sources.map Source.name

theorem SameShape.refl (a : Query) : a.SameShape a := ⟨rfl, rfl, rfl, rfl⟩

theorem SameShape.trans {a b c : Query} (first : a.SameShape b) (second : b.SameShape c) :
    a.SameShape c :=
  ⟨first.grain.trans second.grain, first.sourceType.trans second.sourceType,
    first.condition.trans second.condition, first.sources.trans second.sources⟩

theorem SameShape.identifier {a b : Query} (same : a.SameShape b) :
    a.identifier = b.identifier := by
  rw [identifier_eq, identifier_eq, Source.names_eq, Source.names_eq, same.sources, same.grain,
    same.sourceType, same.condition]

theorem SameShape.alike {a b c : Query} (same : a.SameShape b) (alike : b.Alike c) : a.Alike c := by
  refine ⟨?_, same.sourceType.trans alike.sourceType, ?_, same.sources.trans alike.sources⟩
  · rw [same.grain]
    exact alike.grain
  · rw [same.condition]
    exact alike.condition

/-- Of one shape, also what is nested, with source maps that fit. -/
structure Resembles (a b : Query) : Prop where
  shape : a.SameShape b
  nested : ∀ u ∈ a.nested, u.Fits ∧ ∃ v ∈ b.nested, u.SameShape v

theorem Resembles.refl {a : Query} (fits : a.Throughout Fits) : a.Resembles a :=
  ⟨.refl a, fun u member => ⟨fits u member, u, member, .refl u⟩⟩

theorem Resembles.trans {a b c : Query} (first : a.Resembles b) (second : b.Resembles c) :
    a.Resembles c := by
  refine ⟨first.shape.trans second.shape, fun u member => ?_⟩
  obtain ⟨fits, v, listed, same⟩ := first.nested u member
  obtain ⟨_, w, below, shape⟩ := second.nested v listed
  exact ⟨fits, w, below, same.trans shape⟩

/-- Wherever a name occurs in both queries, it is that of alike queries over different sources. -/
def Mergeable (a b : Query) : Prop :=
  ∀ u ∈ a.nested, ∀ v ∈ b.nested, u.identifier = v.identifier →
    u.Alike v ∧ (u.sources.map Source.name).Nodup

instance : DecidableRel Mergeable := fun a b =>
  inferInstanceAs (Decidable (∀ u ∈ a.nested, ∀ v ∈ b.nested, u.identifier = v.identifier →
    u.Alike v ∧ (u.sources.map Source.name).Nodup))

theorem Mergeable.mono {a b c d : Query} (mergeable : b.Mergeable d)
    (shapes : ∀ u ∈ a.nested, ∃ v ∈ b.nested, u.SameShape v)
    (inside : ∀ v ∈ c.nested, v ∈ d.nested) : a.Mergeable c := by
  intro u below v nested same
  obtain ⟨w, listed, shape⟩ := shapes u below
  obtain ⟨alike, distinct⟩ :=
    mergeable w listed v (inside v nested) (shape.identifier.symm.trans same)
  refine ⟨shape.alike alike, ?_⟩
  rw [shape.sources]
  exact distinct

end Query

namespace Source

/-- Of one name, and with nested queries of one shape. -/
structure Resembles (s t : Source) : Prop where
  name : s.name = t.name
  nested : ∀ u ∈ s.nested, u.Fits ∧ ∃ v ∈ t.nested, u.SameShape v

theorem Resembles.refl {s : Source} (fits : s.Throughout Query.Fits) : s.Resembles s :=
  ⟨rfl, fun u member => ⟨fits u member, u, member, .refl u⟩⟩

theorem Resembles.trans {s t r : Source} (first : s.Resembles t) (second : t.Resembles r) :
    s.Resembles r := by
  refine ⟨first.name.trans second.name, fun u member => ?_⟩
  obtain ⟨fits, v, listed, same⟩ := first.nested u member
  obtain ⟨_, w, below, shape⟩ := second.nested v listed
  exact ⟨fits, w, below, same.trans shape⟩

theorem resembles_query {q r : Query} (resembles : q.Resembles r) :
    (Source.query q).Resembles (.query r) := by
  refine ⟨?_, ?_⟩
  · rw [name, name, resembles.shape.identifier]
  · rw [nested, nested]
    exact resembles.nested

variable {mergeNested : Query → Query → Except PlanError Query}

theorem absorb_new {incoming : Source} {kept : List Source}
    (new : incoming.name ∉ kept.map Source.name) :
    incoming.absorb mergeNested kept = .ok (kept ++ [incoming]) := by
  induction kept with
  | nil => rfl
  | cons s ss ih =>
    rw [List.map_cons, List.mem_cons, not_or] at new
    have apart : (s.name == incoming.name) = false := by simpa using Ne.symm new.1
    unfold absorb
    rw [apart, ih new.2]
    rfl

/-- Sources of different names are all kept. -/
theorem foldlM_absorb_new {ss kept : List Source}
    (distinct : ((kept ++ ss).map Source.name).Nodup) :
    ss.foldlM (fun kept incoming => incoming.absorb mergeNested kept) kept = .ok (kept ++ ss) := by
  induction ss generalizing kept with
  | nil => simp
  | cons s ss ih =>
    have new : s.name ∉ kept.map Source.name := by
      intro old
      rw [List.map_append, List.nodup_append] at distinct
      exact distinct.2.2 s.name old s.name (by simp) rfl
    have rest : ss.foldlM (fun kept incoming => incoming.absorb mergeNested kept) (kept ++ [s]) =
        .ok (kept ++ s :: ss) := by
      simpa using @ih (kept ++ [s]) (by simpa using distinct)
    rw [List.foldlM_cons, absorb_new new]
    exact rest

/-- A source of a name that is there is merged into the source of that name. -/
theorem exists_absorb {incoming : Source} {kept : List Source}
    (listed : incoming.name ∈ kept.map Source.name) (fits : ∀ s ∈ kept, s.Throughout Query.Fits)
    (mergers : ∀ q r, .query q ∈ kept → incoming = .query r → q.identifier = r.identifier →
      ∃ m, mergeNested q r = .ok m ∧ m.Resembles q) :
    ∃ out, incoming.absorb mergeNested kept = .ok out ∧ List.Forall₂ Resembles out kept := by
  induction kept with
  | nil => cases listed
  | cons s ss ih =>
    obtain ⟨first, rest⟩ := List.forall_mem_cons.mp fits
    have same : List.Forall₂ Resembles ss ss :=
      List.forall₂_same.mpr fun t member => .refl (rest t member)
    unfold absorb
    by_cases equal : s.name = incoming.name
    · rw [if_pos (by simpa using equal)]
      split
      · next q r =>
        rw [name, name] at equal
        obtain ⟨m, made, resembles⟩ := mergers q r List.mem_cons_self rfl equal
        refine ⟨.query m :: ss, ?_, .cons (resembles_query resembles) same⟩
        rw [made]
        rfl
      · exact ⟨s :: ss, rfl, .cons (.refl first) same⟩
    · rw [if_neg (by simpa using equal)]
      have later : incoming.name ∈ ss.map Source.name := by
        rcases List.mem_cons.mp listed with here | later
        · exact absurd here.symm equal
        · exact later
      obtain ⟨out, made, resembles⟩ := ih later rest fun q r member =>
        mergers q r (List.mem_cons_of_mem _ member)
      refine ⟨s :: out, ?_, .cons (.refl first) resembles⟩
      rw [made]
      rfl

section Similar

variable {ss base kept out : List Source}

theorem names_of_resembles (resembles : List.Forall₂ Resembles kept base) :
    kept.map Source.name = base.map Source.name := by
  induction resembles with
  | nil => rfl
  | cons first _ ih => rw [List.map_cons, List.map_cons, first.name, ih]

theorem exists_of_resembles (resembles : List.Forall₂ Resembles kept base) {s : Source}
    (member : s ∈ kept) : ∃ t ∈ base, s.Resembles t := by
  induction resembles with
  | nil => cases member
  | @cons s t _ _ first _ ih =>
    rcases List.mem_cons.mp member with rfl | later
    · exact ⟨t, List.mem_cons_self, first⟩
    · obtain ⟨t, listed, same⟩ := ih later
      exact ⟨t, List.mem_cons_of_mem _ listed, same⟩

theorem resembles_trans (first : List.Forall₂ Resembles out kept)
    (second : List.Forall₂ Resembles kept base) : List.Forall₂ Resembles out base := by
  induction first generalizing base with
  | nil =>
    cases second
    exact .nil
  | cons one _ ih =>
    cases second with
    | cons other rest => exact .cons (one.trans other) (ih rest)

/-- Sources whose names are all there are merged into the sources of those names. -/
theorem exists_foldlM_absorb (listed : ∀ s ∈ ss, s.name ∈ base.map Source.name)
    (resembles : List.Forall₂ Resembles kept base)
    (mergers : ∀ q r t, t ∈ base → (Source.query q).Resembles t → .query r ∈ ss →
      q.identifier = r.identifier → ∃ m, mergeNested q r = .ok m ∧ m.Resembles q) :
    ∃ out, ss.foldlM (fun kept incoming => incoming.absorb mergeNested kept) kept = .ok out ∧
      List.Forall₂ Resembles out base := by
  induction ss generalizing kept with
  | nil => exact ⟨kept, rfl, resembles⟩
  | cons s ss ih =>
    have there : s.name ∈ kept.map Source.name := by
      rw [names_of_resembles resembles]
      exact listed s List.mem_cons_self
    have fits : ∀ t ∈ kept, t.Throughout Query.Fits := by
      intro t member u nested
      obtain ⟨_, _, similar⟩ := exists_of_resembles resembles member
      exact (similar.nested u nested).1
    obtain ⟨out, made, absorbed⟩ := @exists_absorb mergeNested s kept there fits
      fun q r member incoming same => by
        obtain ⟨t, below, similar⟩ := exists_of_resembles resembles member
        exact mergers q r t below similar (incoming ▸ List.mem_cons_self) same
    obtain ⟨final, done, same⟩ := ih (fun t member => listed t (List.mem_cons_of_mem _ member))
      (resembles_trans absorbed resembles) fun q r t below similar later =>
        mergers q r t below similar (List.mem_cons_of_mem _ later)
    refine ⟨final, ?_, same⟩
    rw [List.foldlM_cons, made]
    exact done

end Similar

end Source

namespace Query

/-- The merger of alike queries has the shape of the first if its sources have. -/
theorem resembles_merged {a b : Query} {sources : List Source} (alike : a.Alike b)
    (left : a.Fits) (right : b.Fits) (similar : List.Forall₂ Source.Resembles sources a.sources) :
    (a.merged b sources).Resembles a := by
  have shape : (a.merged b sources).SameShape a :=
    ⟨rfl, rfl, Condition.both_of_agrees alike.condition, Source.names_of_resembles similar⟩
  refine ⟨shape, fun u member => ?_⟩
  rcases mem_nested.mp member with rfl | ⟨s, listed, below⟩
  · exact ⟨left.merged right sources, a, a.mem_nested_self, shape⟩
  · obtain ⟨t, own, resembles⟩ := Source.exists_of_resembles similar listed
    obtain ⟨fits, v, nested, same⟩ := resembles.nested u below
    exact ⟨fits, v, mem_nested.mpr (.inr ⟨t, own, nested⟩), same⟩

/-- Queries of one name that are alike, also in what is nested, have a merger of their shape. -/
theorem exists_mergeWithin (depth : Nat) {a b : Query} (mergeable : a.Mergeable b)
    (same : a.identifier = b.identifier) (left : a.Throughout Fits) (right : b.Throughout Fits) :
    ∃ m, mergeWithin (depth + 1) a b = .ok m ∧ m.Resembles a ∧
      ∃ sources, m = a.merged b sources := by
  obtain ⟨alike, distinct⟩ := mergeable a a.mem_nested_self b b.mem_nested_self same
  obtain ⟨leftFits, leftBelow⟩ := throughout_iff.mp left
  obtain ⟨rightFits, rightBelow⟩ := throughout_iff.mp right
  have mergers : ∀ q r t, t ∈ a.sources → (Source.query q).Resembles t → .query r ∈ b.sources →
      q.identifier = r.identifier → ∃ m, mergeWithin depth q r = .ok m ∧ m.Resembles q := by
    intro q r t below similar nested equal
    have shapes := similar.nested
    rw [Source.nested] at shapes
    have inside : ∀ v ∈ r.nested, v ∈ b.nested := by
      intro v member
      refine mem_nested.mpr (.inr ⟨.query r, nested, ?_⟩)
      rw [Source.nested]
      exact member
    have nestedMergeable : q.Mergeable r := by
      refine mergeable.mono (fun u member => ?_) inside
      obtain ⟨_, v, listed, shape⟩ := shapes u member
      exact ⟨v, mem_nested.mpr (.inr ⟨t, below, listed⟩), shape⟩
    cases depth with
    | zero => exact ⟨q, rfl, .refl fun u member => (shapes u member).1⟩
    | succ depth =>
      obtain ⟨m, made, resembles, _⟩ := exists_mergeWithin depth nestedMergeable equal
        (fun u member => (shapes u member).1) fun v member => right v (inside v member)
      exact ⟨m, made, resembles⟩
  have listed : ∀ s ∈ b.sources, s.name ∈ a.sources.map Source.name := by
    intro s member
    rw [alike.sources]
    exact List.mem_map_of_mem member
  obtain ⟨sources, folded, similar⟩ := Source.exists_foldlM_absorb listed
    (List.forall₂_same.mpr fun s member => .refl (leftBelow s member)) mergers
  have kept : (a.sources ++ b.sources).foldlM
      (fun kept incoming => incoming.absorb (mergeWithin depth) kept) [] = .ok sources := by
    rw [List.foldlM_append, Source.foldlM_absorb_new (by simpa using distinct), List.nil_append]
    exact folded
  refine ⟨a.merged b sources, ?_, resembles_merged alike leftFits rightFits similar, sources, rfl⟩
  rw [mergeWithin, mergeWith_eq leftFits rightFits, alike.grain, Bool.not_true,
    if_neg Bool.false_ne_true, if_neg (by simp [alike.sourceType]), kept]
  rfl

theorem depth_eq_succ (q : Query) : q.depth = Source.depthAll q.sources + 1 := by
  cases q
  rw [depth]

theorem exists_merge {a b : Query} (mergeable : a.Mergeable b) (same : a.identifier = b.identifier)
    (left : a.Throughout Fits) (right : b.Throughout Fits) :
    ∃ m, a.merge b = .ok m ∧ m.Resembles a ∧ ∃ sources, m = a.merged b sources := by
  obtain ⟨depth, deep⟩ : ∃ depth, max a.depth b.depth = depth + 1 :=
    ⟨max a.depth b.depth - 1, by rw [depth_eq_succ a]; omega⟩
  rw [merge, deep]
  exact exists_mergeWithin depth mergeable same left right

theorem provides_iff {q : Query} {address : String} :
    q.provides address = true ↔ ∃ c ∈ q.outputs, c.address = address := by
  simp [provides]

theorem mem_completeAddresses {q : Query} {address : String} :
    address ∈ q.completeAddresses ↔
      q.provides address = true ∧ q.isPartialFor address = false := by
  simp [completeAddresses, provides, Concept.addresses]

/-- A query that can stand in for another: of its name, with all that it puts out. -/
structure Takes (m q : Query) : Prop where
  name : m.identifier = q.identifier
  isAbstract : m.grain.isAbstract = q.grain.isAbstract
  outputs : ∀ address, q.provides address = true → m.provides address = true
  complete : ∀ address ∈ q.completeAddresses, address ∈ m.completeAddresses

theorem Takes.refl (q : Query) : q.Takes q := ⟨rfl, rfl, fun _ own => own, fun _ own => own⟩

theorem Takes.trans {a b c : Query} (first : a.Takes b) (second : b.Takes c) : a.Takes c where
  name := first.name.trans second.name
  isAbstract := first.isAbstract.trans second.isAbstract
  outputs address own := first.outputs address (second.outputs address own)
  complete address own := first.complete address (second.complete address own)

theorem isAbstract_of_same {g h : Grain} (same : g.same h = true) :
    g.isAbstract = h.isAbstract := by
  have names := Names.same_iff.mp same
  simp only [Concept.addresses] at names
  rw [Grain.isAbstract, Grain.isAbstract]
  cases left : g.components with
  | nil =>
    cases right : h.components with
    | nil => rfl
    | cons c cs =>
      have listed := (names c.address).mpr (by simp [right])
      simp [left] at listed
  | cons c cs =>
    cases right : h.components with
    | nil =>
      have listed := (names c.address).mp (by simp [left])
      simp [right] at listed
    | cons d ds => rfl

theorem provides_merged {a b : Query} {sources : List Source} {address : String} :
    (a.merged b sources).provides address = true ↔
      a.provides address = true ∨ b.provides address = true := by
  have listed : address ∈ Concept.addresses (Concept.unique (a.outputs ++ b.outputs)) ↔
      address ∈ Concept.addresses a.outputs ∨ address ∈ Concept.addresses b.outputs := by
    simp
  simpa [provides, Concept.addresses, merged] using listed

theorem not_mem_completeAddresses {q : Query} {c : Concept} (held : c ∈ q.partials) :
    c.address ∉ q.completeAddresses := by
  intro complete
  have full := (mem_completeAddresses.mp complete).2
  rw [isPartialFor, List.any_eq_false] at full
  exact full c held (by simp)

/-- What one side has complete is complete in the merger. -/
theorem isPartialFor_merged {a b : Query} {sources : List Source} {address : String}
    (complete : address ∈ a.completeAddresses ∨ address ∈ b.completeAddresses) :
    (a.merged b sources).isPartialFor address = false := by
  rw [isPartialFor, List.any_eq_false]
  intro c member
  rw [beq_iff_eq]
  rintro rfl
  rcases List.mem_append.mp (Concept.mem_of_mem_unique member) with own | own
  · obtain ⟨held, lacking⟩ := List.mem_filter.mp own
    have absent : c.address ∉ b.completeAddresses := by simpa using lacking
    exact complete.elim (not_mem_completeAddresses held) absent
  · obtain ⟨held, lacking⟩ := List.mem_filter.mp own
    have absent : c.address ∉ a.completeAddresses := by simpa using lacking
    exact complete.elim absent (not_mem_completeAddresses held)

theorem mem_completeAddresses_merged {a b : Query} {sources : List Source} {address : String}
    (complete : address ∈ a.completeAddresses ∨ address ∈ b.completeAddresses) :
    address ∈ (a.merged b sources).completeAddresses := by
  refine mem_completeAddresses.mpr ⟨provides_merged.mpr ?_, isPartialFor_merged complete⟩
  exact complete.imp (fun own => (mem_completeAddresses.mp own).1)
    fun own => (mem_completeAddresses.mp own).1

theorem takes_merged_left {a b : Query} {sources : List Source}
    (resembles : (a.merged b sources).Resembles a) : (a.merged b sources).Takes a where
  name := resembles.shape.identifier
  isAbstract := rfl
  outputs _ own := provides_merged.mpr (.inl own)
  complete _ own := mem_completeAddresses_merged (.inl own)

theorem takes_merged_right {a b : Query} {sources : List Source} (alike : a.Alike b)
    (same : a.identifier = b.identifier) (resembles : (a.merged b sources).Resembles a) :
    (a.merged b sources).Takes b where
  name := resembles.shape.identifier.trans same
  isAbstract := isAbstract_of_same alike.grain
  outputs _ own := provides_merged.mpr (.inr own)
  complete _ own := mem_completeAddresses_merged (.inr own)

/-- A query is added to queries of other names, or merged into the query of its name. -/
theorem absorb_cases {incoming : Query} {kept : List Query}
    (mergers : ∀ m ∈ kept, m.identifier = incoming.identifier →
      ∃ joint, m.merge incoming = .ok joint) :
    (incoming.identifier ∉ kept.map identifier ∧
      incoming.absorb kept = .ok (kept ++ [incoming], kept.length)) ∨
    ∃ before m after joint, kept = before ++ m :: after ∧ m.identifier = incoming.identifier ∧
      m.merge incoming = .ok joint ∧
        incoming.absorb kept = .ok (before ++ joint :: after, before.length) := by
  induction kept with
  | nil => exact .inl ⟨by simp, rfl⟩
  | cons q qs ih =>
    rw [absorb]
    by_cases same : q.identifier = incoming.identifier
    · obtain ⟨joint, made⟩ := mergers q List.mem_cons_self same
      refine .inr ⟨[], q, qs, joint, rfl, same, made, ?_⟩
      rw [if_pos (by simpa using same), made]
      rfl
    · rw [if_neg (by simpa using same)]
      rcases ih fun m member => mergers m (List.mem_cons_of_mem _ member) with
        ⟨new, done⟩ | ⟨before, m, after, joint, rfl, equal, made, done⟩
      · refine .inl ⟨?_, ?_⟩
        · rw [List.map_cons, List.mem_cons, not_or]
          exact ⟨Ne.symm same, new⟩
        · rw [done]
          rfl
      · refine .inr ⟨q :: before, m, after, joint, rfl, equal, made, ?_⟩
        rw [done]
        rfl

/-- What the queries kept so far have to do with those that were absorbed. -/
structure Condensed (done kept : List Query) : Prop where
  distinct : (kept.map identifier).Nodup
  origin : ∀ m ∈ kept, ∃ a ∈ done, m.Resembles a
  taken : ∀ q ∈ done, ∃ m ∈ kept, m.Takes q
  outputs : ∀ m ∈ kept, ∀ c ∈ m.outputs, ∃ q ∈ done, c ∈ q.outputs

/-- A query of a new name is kept beside the others. -/
theorem Condensed.append {done kept : List Query} (condensed : Condensed done kept)
    {incoming : Query} (fits : incoming.Throughout Fits)
    (new : incoming.identifier ∉ kept.map identifier) :
    Condensed (done ++ [incoming]) (kept ++ [incoming]) where
  distinct := by
    rw [List.map_append, List.nodup_append]
    refine ⟨condensed.distinct, by simp, fun name old other added => ?_⟩
    rw [List.map_singleton, List.mem_singleton] at added
    rintro rfl
    exact new (added ▸ old)
  origin m member := by
    rcases List.mem_append.mp member with old | added
    · obtain ⟨a, own, resembles⟩ := condensed.origin m old
      exact ⟨a, List.mem_append_left _ own, resembles⟩
    · rw [List.mem_singleton.mp added]
      exact ⟨incoming, by simp, .refl fits⟩
  taken q member := by
    rcases List.mem_append.mp member with old | added
    · obtain ⟨m, own, takes⟩ := condensed.taken q old
      exact ⟨m, List.mem_append_left _ own, takes⟩
    · rw [List.mem_singleton.mp added]
      exact ⟨incoming, by simp, .refl incoming⟩
  outputs m member c output := by
    rcases List.mem_append.mp member with old | added
    · obtain ⟨q, own, listed⟩ := condensed.outputs m old c output
      exact ⟨q, List.mem_append_left _ own, listed⟩
    · rw [List.mem_singleton.mp added] at output
      exact ⟨incoming, by simp, output⟩

/-- A merger takes the place of the query that another one is merged into. -/
theorem Condensed.replace {done first later : List Query} {m incoming : Query}
    {sources : List Source} (condensed : Condensed done (first ++ m :: later))
    (alike : m.Alike incoming) (same : m.identifier = incoming.identifier)
    (resembles : (m.merged incoming sources).Resembles m) :
    Condensed (done ++ [incoming]) (first ++ m.merged incoming sources :: later) := by
  have member : m ∈ first ++ m :: later := by simp
  have placed : m.merged incoming sources ∈ first ++ m.merged incoming sources :: later := by simp
  have others : ∀ q ∈ first ++ m.merged incoming sources :: later,
      q = m.merged incoming sources ∨ q ∈ first ++ m :: later := by
    intro q listed
    simp only [List.mem_append, List.mem_cons] at listed ⊢
    tauto
  have stays : ∀ q ∈ first ++ m :: later,
      q = m ∨ q ∈ first ++ m.merged incoming sources :: later := by
    intro q listed
    simp only [List.mem_append, List.mem_cons] at listed ⊢
    tauto
  refine ⟨?_, fun q listed => ?_, fun q listed => ?_, fun q listed c output => ?_⟩
  · have names : (first ++ m.merged incoming sources :: later).map identifier =
        (first ++ m :: later).map identifier := by
      rw [List.map_append, List.map_cons, resembles.shape.identifier, List.map_append,
        List.map_cons]
    rw [names]
    exact condensed.distinct
  · rcases others q listed with rfl | old
    · obtain ⟨a, own, similar⟩ := condensed.origin m member
      exact ⟨a, List.mem_append_left _ own, resembles.trans similar⟩
    · obtain ⟨a, own, similar⟩ := condensed.origin q old
      exact ⟨a, List.mem_append_left _ own, similar⟩
  · rcases List.mem_append.mp listed with old | added
    · obtain ⟨taker, own, takes⟩ := condensed.taken q old
      rcases stays taker own with rfl | still
      · exact ⟨_, placed, (takes_merged_left resembles).trans takes⟩
      · exact ⟨taker, still, takes⟩
    · rw [List.mem_singleton.mp added]
      exact ⟨_, placed, takes_merged_right alike same resembles⟩
  · have origin {n : Query} (old : n ∈ first ++ m :: later) (own : c ∈ n.outputs) :
        ∃ q ∈ done ++ [incoming], c ∈ q.outputs := by
      obtain ⟨q, made, held⟩ := condensed.outputs n old c own
      exact ⟨q, List.mem_append_left _ made, held⟩
    rcases others q listed with rfl | old
    · rcases List.mem_append.mp (Concept.mem_of_mem_unique output) with own | own
      · exact origin member own
      · exact ⟨incoming, by simp, own⟩
    · exact origin old output

/-- One more query is taken in. -/
theorem Condensed.absorb {done kept : List Query} (condensed : Condensed done kept)
    {incoming : Query} (mergeable : ∀ a ∈ done, a.Mergeable incoming)
    (fits : incoming.Throughout Fits) :
    ∃ out index, incoming.absorb kept = .ok (out, index) ∧ Condensed (done ++ [incoming]) out := by
  have similar : ∀ m ∈ kept, m.Mergeable incoming := by
    intro m member
    obtain ⟨a, own, resembles⟩ := condensed.origin m member
    exact (mergeable a own).mono (fun u below => (resembles.nested u below).2) fun _ own => own
  have made : ∀ m ∈ kept, m.identifier = incoming.identifier →
      ∃ joint, m.merge incoming = .ok joint ∧ joint.Resembles m ∧
        ∃ sources, joint = m.merged incoming sources := by
    intro m member same
    obtain ⟨a, own, resembles⟩ := condensed.origin m member
    exact exists_merge (similar m member) same (fun u below => (resembles.nested u below).1) fits
  rcases absorb_cases fun m member same => (made m member same).imp fun _ step => step.1 with
    ⟨new, absorbed⟩ | ⟨first, m, later, joint, rfl, same, merging, absorbed⟩
  · exact ⟨_, _, absorbed, condensed.append fits new⟩
  · have member : m ∈ first ++ m :: later := by simp
    obtain ⟨joint, merged, resembles, sources, rfl⟩ := made m member same
    cases merging.symm.trans merged
    have alike := (similar m member m m.mem_nested_self incoming incoming.mem_nested_self same).1
    exact ⟨_, _, absorbed, condensed.replace alike same resembles⟩

/-- Queries are condensed whenever each can be merged with those before it. -/
theorem exists_dedupe {queries : List Query} (mergeable : queries.Pairwise Mergeable)
    (fits : ∀ q ∈ queries, q.Throughout Fits) :
    ∃ kept positions, dedupe queries = .ok (kept, positions) ∧ Condensed queries kept := by
  let step (state : List Query × List Nat) (incoming : Query) :
      Except PlanError (List Query × List Nat) :=
    incoming.absorb state.1 >>= fun out => .ok (out.1, state.2 ++ [out.2])
  suffices run : ∀ (rest done kept : List Query) (positions : List Nat), done ++ rest = queries →
      Condensed done kept → ∃ out indices, rest.foldlM step (kept, positions) = .ok (out, indices) ∧
        Condensed queries out from
    run queries [] [] [] rfl ⟨by simp, by simp, by simp, by simp⟩
  intro rest
  induction rest with
  | nil =>
    intro done kept positions all condensed
    rw [List.append_nil] at all
    exact ⟨kept, positions, rfl, all ▸ condensed⟩
  | cons q rest ih =>
    intro done kept positions all condensed
    have earlier : ∀ a ∈ done, a.Mergeable q := by
      rw [← all, List.pairwise_append] at mergeable
      exact fun a own => mergeable.2.2 a own q List.mem_cons_self
    have own : q ∈ queries := by
      rw [← all]
      simp
    obtain ⟨next, index, absorbed, more⟩ := condensed.absorb earlier (fits q own)
    obtain ⟨out, indices, ran, final⟩ :=
      ih (done ++ [q]) next (positions ++ [index]) (by simpa using all) more
    refine ⟨out, indices, ?_, final⟩
    have stepped : step (kept, positions) q = .ok (next, positions ++ [index]) :=
      bind_eq_ok.mpr ⟨_, absorbed, rfl⟩
    rw [List.foldlM_cons, stepped]
    exact ran

end Query

end SemanticQuery
