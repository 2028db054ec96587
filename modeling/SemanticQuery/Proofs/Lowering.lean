import SemanticQuery.Concept.Declare
import SemanticQuery.Proofs.Units

/-!
Lowering yields a closed and ordered list of expressions: each has a name of its own, comes after
its parents and reads from them only, and the last is that of the query. Merging expressions of one
name keeps the order if these have the same parents, which their queries have to see to.
-/

namespace SemanticQuery

namespace Cte

/-- Whether every expression comes after its parents, given the names that came before. -/
def parentsFirst (earlier : List String) : List Cte → Bool
  | [] => true
  | cte :: rest => cte.parents.all earlier.contains && parentsFirst (cte.name :: earlier) rest

theorem parentsFirst_cons {earlier : List String} {cte : Cte} {rest : List Cte} :
    parentsFirst earlier (cte :: rest) = true ↔
      (∀ parent ∈ cte.parents, parent ∈ earlier) ∧
        parentsFirst (cte.name :: earlier) rest = true := by
  simp [parentsFirst]

theorem parentsFirst_mono {earlier more : List String} {ctes : List Cte}
    (subset : ∀ name ∈ earlier, name ∈ more) (ordered : parentsFirst earlier ctes = true) :
    parentsFirst more ctes = true := by
  induction ctes generalizing earlier more with
  | nil => rfl
  | cons cte rest ih =>
    obtain ⟨parents, later⟩ := parentsFirst_cons.mp ordered
    refine parentsFirst_cons.mpr ⟨fun parent member => subset _ (parents parent member), ?_⟩
    refine ih (fun name member => ?_) later
    rcases List.mem_cons.mp member with rfl | member
    · exact List.mem_cons_self
    · exact List.mem_cons_of_mem _ (subset name member)

theorem parentsFirst_append {earlier : List String} {ctes more : List Cte} :
    parentsFirst earlier (ctes ++ more) = true ↔
      parentsFirst earlier ctes = true ∧
        parentsFirst ((ctes.map (·.name)).reverse ++ earlier) more = true := by
  induction ctes generalizing earlier with
  | nil => simp [parentsFirst]
  | cons cte rest ih =>
    rw [List.cons_append, parentsFirst_cons, parentsFirst_cons, ih, and_assoc]
    simp

/-- Only the names and the parents matter. -/
theorem parentsFirst_congr {earlier : List String} {before after : List Cte} {cte other : Cte}
    (name : other.name = cte.name) (parents : other.parents = cte.parents) :
    parentsFirst earlier (before ++ other :: after) =
      parentsFirst earlier (before ++ cte :: after) := by
  induction before generalizing earlier with
  | nil => simp only [List.nil_append, parentsFirst, name, parents]
  | cons first rest ih => simp only [List.cons_append, parentsFirst, ih]

theorem absorb_new {incoming : Cte} {kept : List Cte}
    (new : incoming.name ∉ kept.map (·.name)) :
    incoming.absorb kept = .ok (kept ++ [incoming]) := by
  induction kept with
  | nil => rfl
  | cons cte rest ih =>
    rw [List.map_cons, List.mem_cons, not_or] at new
    rw [absorb, if_neg (by simpa using Ne.symm new.1), ih new.2]
    rfl

/-- An expression is merged into the one of its name, wherever that stands. -/
theorem absorb_old {incoming : Cte} {kept : List Cte}
    (held : incoming.name ∈ kept.map (·.name))
    (merges : ∀ cte ∈ kept, cte.name = incoming.name → ∃ merged, cte.merge incoming = .ok merged) :
    ∃ before cte after merged, kept = before ++ cte :: after ∧ cte.name = incoming.name ∧
      cte.merge incoming = .ok merged ∧
      incoming.absorb kept = .ok (before ++ merged :: after) := by
  induction kept with
  | nil => cases held
  | cons first rest ih =>
    by_cases same : first.name = incoming.name
    · obtain ⟨merged, made⟩ := merges first List.mem_cons_self same
      refine ⟨[], first, rest, merged, rfl, same, made, ?_⟩
      rw [absorb, if_pos (by simpa using same), made]
      rfl
    · rw [List.map_cons, List.mem_cons] at held
      obtain ⟨before, cte, after, merged, rfl, named, made, absorbed⟩ :=
        ih (held.resolve_left (Ne.symm same)) fun cte member =>
          merges cte (List.mem_cons_of_mem _ member)
      refine ⟨first :: before, cte, after, merged, rfl, named, made, ?_⟩
      rw [absorb, if_neg (by simpa using same), absorbed]
      rfl

theorem mergeAll_concat (ctes : List Cte) (cte : Cte) :
    mergeAll (ctes ++ [cte]) = mergeAll ctes >>= cte.absorb := by
  simp [mergeAll, List.foldlM_append]

theorem name_of_mem_absorb {incoming : Cte} {kept after : List Cte}
    (absorbed : incoming.absorb kept = .ok after) {name : String}
    (member : name ∈ after.map (·.name)) : name = incoming.name ∨ name ∈ kept.map (·.name) := by
  induction kept generalizing after with
  | nil =>
    cases absorbed
    exact .inl (by simpa using member)
  | cons first rest ih =>
    rw [absorb] at absorbed
    split at absorbed
    · obtain ⟨merged, made, done⟩ := bind_eq_ok.mp absorbed
      cases done
      have kept : merged.name = first.name := by
        unfold Cte.merge at made
        split at made
        · cases made
        · cases made
          rfl
      exact .inr (by simpa [kept] using member)
    · obtain ⟨others, made, done⟩ := bind_eq_ok.mp absorbed
      cases done
      rw [List.map_cons, List.mem_cons] at member ⊢
      rcases member with same | member
      · exact .inr (.inl same)
      · exact (ih made member).imp_right .inr

/-- Merging makes no new names. -/
theorem name_of_mem_mergeAll {ctes after : List Cte} (merged : mergeAll ctes = .ok after)
    {name : String} (member : name ∈ after.map (·.name)) : name ∈ ctes.map (·.name) := by
  refine foldlM_keeps (fun kept => ∀ name ∈ kept.map (·.name), name ∈ ctes.map (·.name))
    (fun kept cte listed after held absorbed name member => ?_) (by simp) merged name member
  rcases name_of_mem_absorb absorbed member with rfl | before
  · exact List.mem_map_of_mem listed
  · exact held name before

theorem mergeParents_of_subset {a b : List String} (subset : ∀ parent ∈ b, parent ∈ a) :
    mergeParents a b = a := by
  unfold mergeParents
  induction b with
  | nil => rfl
  | cons parent rest ih =>
    have held : a.contains parent = true := by simpa using subset parent List.mem_cons_self
    rw [List.foldl_cons, if_pos held]
    exact ih fun other member => subset other (List.mem_cons_of_mem _ member)

theorem mem_of_mem_mergeJoins {a b : List CteJoin} {j : CteJoin} (member : j ∈ mergeJoins a b) :
    j ∈ a ∨ j ∈ b := by
  unfold mergeJoins at member
  induction b generalizing a with
  | nil => exact .inl member
  | cons first rest ih =>
    rw [List.foldl_cons] at member
    rcases ih member with before | later
    · split at before
      · exact .inl before
      · rcases List.mem_append.mp before with old | added
        · exact .inl old
        · rw [List.mem_singleton.mp added]
          exact .inr List.mem_cons_self
    · exact .inr (List.mem_cons_of_mem _ later)

theorem mem_of_mem_complete {m other : NameMap α} {entry : String × α}
    (member : entry ∈ (complete m other).entries) : entry ∈ m.entries ∨ entry ∈ other.entries := by
  unfold complete at member
  generalize other.entries = entries at member ⊢
  induction entries generalizing m with
  | nil => exact .inl member
  | cons first rest ih =>
    rw [List.foldl_cons] at member
    rcases ih member with before | later
    · unfold NameMap.insertIfNew at before
      split at before
      · exact .inl before
      · rcases NameMap.mem_entries_insert before with rfl | old
        · exact .inr List.mem_cons_self
        · exact .inl old
    · exact .inr (List.mem_cons_of_mem _ later)

end Cte

namespace Query

variable {maxLength : Nat}

theorem lower_of_direct {q : Query} (direct : Source.isDirect q.sources = true) :
    q.lower maxLength = .ok [q.toCte maxLength none] := by
  cases q
  rw [lower, if_pos direct]
  rfl

theorem lower_of_wrapping {q : Query} (wraps : Source.isDirect q.sources = false) :
    q.lower maxLength = Source.lowerAll maxLength q.sources >>= fun lowered =>
      Cte.mergeAll (lowered.2 ++ [q.toCte maxLength (some lowered.1)]) := by
  cases q
  rw [lower, if_neg (by simpa using wraps)]

end Query

mutual

/-- Every expression has the name of one of the queries. -/
theorem Query.unit_of_mem_lower {maxLength : Nat} : (q : Query) → {ctes : List Cte} →
    q.lower maxLength = .ok ctes → {name : String} → name ∈ ctes.map (·.name) →
    ∃ u ∈ q.units, name = u.cteName maxLength
  | ⟨inputs, outputs, sourceMap, sources, grain, joins, sourceType, partials, condition, limit⟩,
    ctes, lowered, name, member => by
    let q : Query :=
      ⟨inputs, outputs, sourceMap, sources, grain, joins, sourceType, partials, condition, limit⟩
    cases direct : Source.isDirect sources with
    | true =>
      cases (Query.lower_of_direct (q := q) direct).symm.trans lowered
      exact ⟨q, q.mem_units_self, List.mem_singleton.mp member⟩
    | false =>
      rw [Query.lower_of_wrapping (q := q) direct] at lowered
      obtain ⟨⟨parents, below⟩, made, merged⟩ := bind_eq_ok.mp lowered
      have listed := Cte.name_of_mem_mergeAll merged member
      rw [List.map_append, List.mem_append] at listed
      rcases listed with inner | own
      · obtain ⟨u, unit, same⟩ := Source.unit_of_mem_lowerAll sources made inner
        exact ⟨u, Query.mem_units_of_below (q := q) direct unit, same⟩
      · exact ⟨q, q.mem_units_self, List.mem_singleton.mp own⟩

theorem Source.unit_of_mem_lower {maxLength : Nat} : (s : Source) → {ctes : List Cte} →
    s.lower maxLength = .ok ctes → {name : String} → name ∈ ctes.map (·.name) →
    ∃ u ∈ s.units, name = u.cteName maxLength
  | .datasource d, ctes, lowered, name, member => by
    rw [Source.lower, Query.ofDatasource_eq] at lowered
    cases lowered
    rw [Source.units]
    exact ⟨d.query, List.mem_cons_self, List.mem_singleton.mp member⟩
  | .query q, ctes, lowered, name, member => by
    rw [Source.lower] at lowered
    rw [Source.units]
    exact Query.unit_of_mem_lower q lowered member

theorem Source.unit_of_mem_lowerAll {maxLength : Nat} : (ss : List Source) →
    {parents : List (String × String)} → {ctes : List Cte} →
    Source.lowerAll maxLength ss = .ok (parents, ctes) → {name : String} →
    name ∈ ctes.map (·.name) → ∃ u ∈ Source.unitsAll ss, name = u.cteName maxLength
  | [], parents, ctes, lowered, name, member => by
    rw [Source.lowerAll] at lowered
    cases lowered
    cases member
  | s :: ss, parents, ctes, lowered, name, member => by
    rw [Source.lowerAll] at lowered
    obtain ⟨first, own, lowered⟩ := bind_eq_ok.mp lowered
    obtain ⟨⟨_, more⟩, others, lowered⟩ := bind_eq_ok.mp lowered
    cases lowered
    rw [List.map_append, List.mem_append] at member
    rw [Source.unitsAll]
    rcases member with member | member
    · obtain ⟨u, unit, same⟩ := Source.unit_of_mem_lower s own member
      exact ⟨u, List.mem_append_left _ unit, same⟩
    · obtain ⟨u, unit, same⟩ := Source.unit_of_mem_lowerAll ss others member
      exact ⟨u, List.mem_append_right _ unit, same⟩

end

/-- The expression of a query is the last one and is not merged with any other, if no query below
has an expression of its name. -/
theorem Query.exists_last {maxLength : Nat} {q : Query} {ctes : List Cte}
    (lowered : q.lower maxLength = .ok ctes)
    (apart : Source.isDirect q.sources = false → ∀ u ∈ Source.unitsAll q.sources,
      u.cteName maxLength ≠ q.cteName maxLength) :
    ∃ before parents, ctes = before ++ [q.toCte maxLength parents] := by
  cases direct : Source.isDirect q.sources with
  | true =>
    cases (lower_of_direct direct).symm.trans lowered
    exact ⟨[], none, rfl⟩
  | false =>
    rw [lower_of_wrapping direct] at lowered
    obtain ⟨⟨parents, below⟩, made, merged⟩ := bind_eq_ok.mp lowered
    rw [Cte.mergeAll_concat] at merged
    obtain ⟨kept, inner, absorbed⟩ := bind_eq_ok.mp merged
    have new : (q.toCte maxLength (some parents)).name ∉ kept.map (·.name) := by
      intro member
      obtain ⟨u, unit, same⟩ := Source.unit_of_mem_lowerAll q.sources made
        (Cte.name_of_mem_mergeAll inner member)
      exact apart direct u unit same.symm
    cases (Cte.absorb_new new).symm.trans absorbed
    exact ⟨kept, some parents, rfl⟩

namespace Source

/-- Whether two sources get expressions of the same name: queries of one name, or datasources of one
name and grain. -/
def alike : Source → Source → Bool
  | .datasource d, .datasource e =>
    d.fullName == e.fullName && d.grain.identifier == e.grain.identifier
  | .query q, .query r => q.identifier == r.identifier
  | _, _ => false

def alikeAll : List Source → List Source → Bool
  | [], [] => true
  | s :: ss, t :: ts => s.alike t && alikeAll ss ts
  | _, _ => false

theorem cteName_of_alike (maxLength : Nat) {s t : Source} (alike : s.alike t = true) :
    s.cteName maxLength = t.cteName maxLength := by
  have named {q r : Query} (same : q.identifier = r.identifier) :
      q.cteName maxLength = r.cteName maxLength := by rw [Query.cteName, Query.cteName, same]
  cases s <;> cases t
  · next d e =>
    simp only [Source.alike, Bool.and_eq_true, beq_iff_eq] at alike
    refine named ?_
    rw [Query.identifier_eq, Query.identifier_eq]
    simp [Datasource.query, Query.nameOf, names, name, alike]
  · cases alike
  · cases alike
  · exact named (by simpa [Source.alike] using alike)

theorem cteNames_of_alikeAll (maxLength : Nat) {ss ts : List Source}
    (alike : alikeAll ss ts = true) :
    ss.map (·.cteName maxLength) = ts.map (·.cteName maxLength) := by
  induction ss generalizing ts with
  | nil =>
    cases ts with
    | nil => rfl
    | cons t ts => cases alike
  | cons s ss ih =>
    cases ts with
    | nil => cases alike
    | cons t ts =>
      obtain ⟨first, rest⟩ := Bool.and_eq_true_iff.mp alike
      rw [List.map_cons, List.map_cons, cteName_of_alike maxLength first, ih rest]

/-- What reads a datasource directly is alike only to what does so, by the same name. -/
theorem exists_of_alikeAll_single {ss : List Source} {e : Datasource}
    (alike : alikeAll ss [.datasource e] = true) :
    ∃ d, ss = [.datasource d] ∧ d.fullName = e.fullName := by
  rcases ss with _ | ⟨first, _ | ⟨second, rest⟩⟩
  · cases alike
  · cases first with
    | datasource d =>
      simp only [alikeAll, Source.alike, Bool.and_eq_true, beq_iff_eq] at alike
      exact ⟨d, rfl, alike.1.1⟩
    | query q => cases alike
  · simp [alikeAll] at alike

theorem isDirect_of_alikeAll {ss ts : List Source} (alike : alikeAll ss ts = true) :
    isDirect ss = isDirect ts := by
  rcases ss with _ | ⟨first, _ | ⟨second, rest⟩⟩ <;>
    rcases ts with _ | ⟨other, _ | ⟨next, more⟩⟩
  case cons.nil.cons.nil =>
    cases first <;> cases other
    · rfl
    · cases alike
    · cases alike
    · rfl
  all_goals simp [alikeAll] at alike
  all_goals simp [isDirect]

end Source

/-- The names of the expressions that a query reads. -/
def Query.cteParents (maxLength : Nat) (q : Query) : List String :=
  if Source.isDirect q.sources then [] else q.sources.map (·.cteName maxLength)

theorem Query.cteParents_of_alikeAll (maxLength : Nat) {q r : Query}
    (alike : Source.alikeAll q.sources r.sources = true) :
    q.cteParents maxLength = r.cteParents maxLength := by
  rw [cteParents, cteParents, Source.isDirect_of_alikeAll alike,
    Source.cteNames_of_alikeAll maxLength alike]

/-- Queries whose references stay within their own sources, and of which those with expressions of
one name have the same name, sources and grain. -/
structure Coherent (maxLength : Nat) (units : List Query) : Prop where
  joins : ∀ u ∈ units, ∀ j ∈ u.joins,
    j.left ∈ Source.names u.sources ∧ j.right ∈ Source.names u.sources
  reads : ∀ u ∈ units, ∀ entry ∈ u.sourceMap.entries, ∀ name ∈ entry.2,
    name ∈ Source.names u.sources
  named : ∀ u ∈ units, ∀ v ∈ units, u.cteName maxLength = v.cteName maxLength →
    u.identifier = v.identifier ∧ Source.names u.sources = Source.names v.sources ∧
      u.grain.same v.grain = true

/-- Coherent queries that join two sources each time, and of which those with expressions of one
name also have sources with expressions of the same names. -/
structure Lowerable (maxLength : Nat) (units : List Query) : Prop
    extends Coherent maxLength units where
  apart : ∀ u ∈ units, ∀ j ∈ u.joins, j.left ≠ j.right
  alike : ∀ u ∈ units, ∀ v ∈ units, u.cteName maxLength = v.cteName maxLength →
    Source.alikeAll u.sources v.sources = true

theorem Lowerable.mono {maxLength : Nat} {units some : List Query}
    (lowerable : Lowerable maxLength units) (subset : ∀ u ∈ some, u ∈ units) :
    Lowerable maxLength some where
  joins u member := lowerable.joins u (subset u member)
  reads u member := lowerable.reads u (subset u member)
  named u member v other := lowerable.named u (subset u member) v (subset v other)
  apart u member := lowerable.apart u (subset u member)
  alike u member v other := lowerable.alike u (subset u member) v (subset v other)

namespace Cte

/-- An expression for a query: it has its name, grain, sources and parents, and joins and reads its
parents, or else the only datasource. -/
structure Stands (maxLength : Nat) (u : Query) (cte : Cte) : Prop where
  name : cte.name = u.cteName maxLength
  grain : cte.grain = u.grain
  sources : cte.source.sources = u.sources
  parents : cte.parents = u.cteParents maxLength
  joins : ∀ j ∈ cte.joins, j.left ∈ cte.parents ∧ j.right ∈ cte.parents
  reads : ∀ entry ∈ cte.sourceMap.entries, entry.2 = "" ∨ entry.2 ∈ cte.parents ∨
    ∃ d, cte.datasource? = some d ∧ entry.2 = d.fullName

theorem datasource?_eq_some {cte : Cte} {d : Datasource} :
    cte.datasource? = some d ↔ cte.source.sources = [.datasource d] := by
  unfold datasource?
  split
  · next e single => simp [single]
  · next other =>
    refine ⟨nofun, fun single => absurd single ?_⟩
    exact other d

/-- Expressions of one name merge into one that stands for the same query as the first. -/
theorem Stands.merge {maxLength : Nat} {u v : Query} {a b : Cte} (stands : Stands maxLength u a)
    (incoming : Stands maxLength v b) (grain : u.grain.same v.grain = true)
    (alike : Source.alikeAll u.sources v.sources = true) :
    ∃ merged, a.merge b = .ok merged ∧ Stands maxLength u merged := by
  have sameParents : b.parents = a.parents := by
    rw [incoming.parents, stands.parents, Query.cteParents_of_alikeAll maxLength alike]
  have parents : mergeParents a.parents b.parents = a.parents :=
    mergeParents_of_subset fun parent member => sameParents ▸ member
  have sameGrain : a.grain.same b.grain = true := by rwa [stands.grain, incoming.grain]
  refine ⟨_, by rw [Cte.merge, if_neg (by simp [sameGrain])], ?_⟩
  rw [parents]
  refine ⟨stands.name, stands.grain, stands.sources, stands.parents, fun j member => ?_,
    fun entry member => ?_⟩
  · rcases mem_of_mem_mergeJoins member with own | other
    · exact stands.joins j own
    · have := incoming.joins j other
      rwa [sameParents] at this
  · rcases mem_of_mem_complete member with own | other
    · exact stands.reads entry own
    · rcases incoming.reads entry other with empty | parent | ⟨e, single, value⟩
      · exact .inl empty
      · exact .inr (.inl (sameParents ▸ parent))
      · rw [datasource?_eq_some, incoming.sources] at single
        rw [single] at alike
        obtain ⟨d, own, name⟩ := Source.exists_of_alikeAll_single alike
        refine .inr (.inr ⟨d, ?_, value.trans name.symm⟩)
        exact datasource?_eq_some.mpr (stands.sources.trans own)

/-- Expressions for some of the queries, with names of their own and in order. -/
structure Lowered (maxLength : Nat) (units : List Query) (ctes : List Cte) : Prop where
  stands : ∀ cte ∈ ctes, ∃ u ∈ units, Stands maxLength u cte
  distinct : (ctes.map (·.name)).Nodup
  ordered : parentsFirst [] ctes = true

section

variable {maxLength : Nat} {units : List Query}

theorem Lowered.concat {kept : List Cte} {incoming : Cte} {u : Query}
    (lowered : Lowered maxLength units kept) (listed : u ∈ units)
    (stands : Stands maxLength u incoming)
    (parents : ∀ parent ∈ incoming.parents, parent ∈ kept.map (·.name))
    (new : incoming.name ∉ kept.map (·.name)) :
    Lowered maxLength units (kept ++ [incoming]) where
  stands x member := by
    rcases List.mem_append.mp member with first | last
    · exact lowered.stands x first
    · rw [List.mem_singleton.mp last]
      exact ⟨u, listed, stands⟩
  distinct := by
    rw [List.map_append]
    refine List.nodup_append.mpr ⟨lowered.distinct, by simp, ?_⟩
    intro name member other last same
    have : other = incoming.name := by simpa using last
    exact new (this ▸ same ▸ member)
  ordered := by
    refine parentsFirst_append.mpr ⟨lowered.ordered, parentsFirst_cons.mpr ⟨?_, rfl⟩⟩
    intro parent member
    simpa using parents parent member

/-- An expression can be replaced by one of the same name that has the same parents. -/
theorem Lowered.replace {before after : List Cte} {cte merged : Cte} {u : Query}
    (lowered : Lowered maxLength units (before ++ cte :: after)) (listed : u ∈ units)
    (stands : Stands maxLength u merged) (name : merged.name = cte.name)
    (parents : merged.parents = cte.parents) :
    Lowered maxLength units (before ++ merged :: after) where
  stands x member := by
    rcases List.mem_append.mp member with first | later
    · exact lowered.stands x (List.mem_append_left _ first)
    · rcases List.mem_cons.mp later with rfl | later
      · exact ⟨u, listed, stands⟩
      · exact lowered.stands x (List.mem_append_right _ (List.mem_cons_of_mem _ later))
  distinct := by
    have names : (before ++ merged :: after).map (·.name) =
        (before ++ cte :: after).map (·.name) := by
      simp [name]
    exact names ▸ lowered.distinct
  ordered := by
    rw [parentsFirst_congr name parents]
    exact lowered.ordered

/-- An expression of a name that is there already merges with the one that has it. -/
theorem Lowered.exists_merge {kept : List Cte} {cte incoming : Cte} {u : Query}
    (lowered : Lowered maxLength units kept) (lowerable : Lowerable maxLength units)
    (listed : u ∈ units) (stands : Stands maxLength u incoming) (member : cte ∈ kept)
    (same : cte.name = incoming.name) :
    ∃ merged, cte.merge incoming = .ok merged ∧ (∃ v ∈ units, Stands maxLength v merged) ∧
      merged.name = cte.name ∧ merged.parents = cte.parents := by
  obtain ⟨v, other, own⟩ := lowered.stands cte member
  have named : v.cteName maxLength = u.cteName maxLength := by
    rw [← own.name, ← stands.name, same]
  obtain ⟨merged, made, result⟩ := own.merge stands (lowerable.named v other u listed named).2.2
    (lowerable.alike v other u listed named)
  exact ⟨merged, made, ⟨v, other, result⟩, result.name.trans own.name.symm,
    result.parents.trans own.parents.symm⟩

/-- An expression whose parents are there can be added. -/
theorem Lowered.absorb {kept : List Cte} {incoming : Cte} {u : Query}
    (lowered : Lowered maxLength units kept) (lowerable : Lowerable maxLength units)
    (listed : u ∈ units) (stands : Stands maxLength u incoming)
    (parents : ∀ parent ∈ incoming.parents, parent ∈ kept.map (·.name)) :
    ∃ after, incoming.absorb kept = .ok after ∧ Lowered maxLength units after ∧
      ∀ name, name ∈ after.map (·.name) ↔ name = incoming.name ∨ name ∈ kept.map (·.name) := by
  by_cases held : incoming.name ∈ kept.map (·.name)
  · -- it is merged into one that stays where it is, with the parents that it has
    obtain ⟨before, cte, after, merged, rfl, same, made, absorbed⟩ := absorb_old held
      fun cte member same => by
        obtain ⟨merged, made, _⟩ := lowered.exists_merge lowerable listed stands member same
        exact ⟨merged, made⟩
    obtain ⟨result, made', ⟨v, other, standing⟩, name, sameParents⟩ :=
      lowered.exists_merge lowerable listed stands (by simp) same
    cases made.symm.trans made'
    refine ⟨_, absorbed, lowered.replace other standing name sameParents, fun other => ?_⟩
    have names : (before ++ merged :: after).map (·.name) =
        (before ++ cte :: after).map (·.name) := by
      simp [name]
    rw [names]
    refine ⟨.inr, ?_⟩
    rintro (rfl | member)
    · exact held
    · exact member
  · exact ⟨_, absorb_new held, lowered.concat listed stands parents held, fun name => by
      simp [or_comm]⟩

theorem lowered_single {cte : Cte} {u : Query} (stands : Stands maxLength u cte)
    (listed : u ∈ units) (parents : cte.parents = []) : Lowered maxLength units [cte] := by
  refine ⟨fun other member => ?_, by simp, parentsFirst_cons.mpr ⟨by simp [parents], rfl⟩⟩
  rw [List.mem_singleton.mp member]
  exact ⟨u, listed, stands⟩

/-- Expressions in order can be added one after the other. -/
theorem Lowered.absorbAll {kept incoming : List Cte} (lowered : Lowered maxLength units kept)
    (lowerable : Lowerable maxLength units)
    (stands : ∀ cte ∈ incoming, ∃ u ∈ units, Stands maxLength u cte)
    (ordered : parentsFirst (kept.map (·.name)) incoming = true) :
    ∃ after, incoming.foldlM (fun kept cte => cte.absorb kept) kept = .ok after ∧
      Lowered maxLength units after ∧
      ∀ name, name ∈ after.map (·.name) ↔
        name ∈ kept.map (·.name) ∨ name ∈ incoming.map (·.name) := by
  induction incoming generalizing kept with
  | nil => exact ⟨kept, rfl, lowered, by simp⟩
  | cons cte rest ih =>
    obtain ⟨parents, later⟩ := parentsFirst_cons.mp ordered
    obtain ⟨u, listed, own⟩ := stands cte List.mem_cons_self
    obtain ⟨next, absorbed, nextLowered, names⟩ := lowered.absorb lowerable listed own parents
    obtain ⟨after, done, afterLowered, allNames⟩ := ih nextLowered
      (fun other member => stands other (List.mem_cons_of_mem _ member))
      (parentsFirst_mono (fun name member => (names name).mpr (List.mem_cons.mp member)) later)
    refine ⟨after, ?_, afterLowered, fun name => ?_⟩
    · rw [List.foldlM_cons, absorbed]
      exact done
    · rw [allNames, names, List.map_cons, List.mem_cons, or_assoc, or_left_comm]

end

end Cte

namespace Query

variable {maxLength : Nat}

/-- For each source its name and that of its expression. -/
def cteSources (maxLength : Nat) (sources : List Source) : List (String × String) :=
  sources.map fun s => (s.name, s.cteName maxLength)

theorem exists_get?_cteSources (maxLength : Nat) {sources : List Source} {name : String}
    (own : name ∈ Source.names sources) :
    ∃ cte, (NameMap.ofList (cteSources maxLength sources)).get? name = some cte ∧
      cte ∈ sources.map (·.cteName maxLength) := by
  have listed : name ∈ (cteSources maxLength sources).map (·.1) := by
    rw [Source.names_eq] at own
    simpa [cteSources] using own
  obtain ⟨cte, held, member⟩ := NameMap.exists_get?_ofList listed
  obtain ⟨s, source, same⟩ := List.mem_map.mp member
  refine ⟨cte, held, List.mem_map.mpr ⟨s, source, ?_⟩⟩
  exact congrArg Prod.snd same

theorem eq_of_isDirect {sources : List Source} (direct : Source.isDirect sources = true)
    {name : String} (own : name ∈ Source.names sources) :
    ∃ d, sources = [.datasource d] ∧ name = d.fullName := by
  rcases sources with _ | ⟨_ | _, _ | _⟩
  · simp [Source.names] at own
  · next d => exact ⟨d, rfl, by simpa [Source.names, Source.name] using own⟩
  all_goals cases direct

/-- The expression of a query that reads a datasource directly, or nothing. -/
theorem stands_direct {q : Query} (lowerable : Lowerable maxLength [q])
    (direct : Source.isDirect q.sources = true) :
    Cte.Stands maxLength q (q.toCte maxLength none) := by
  have self : q ∈ [q] := List.mem_cons_self
  -- with one source there are no two to be joined
  have noJoins : q.joins = [] := by
    refine List.eq_nil_iff_forall_not_mem.mpr fun j member => ?_
    obtain ⟨left, right⟩ := lowerable.joins q self j member
    obtain ⟨d, single, leftName⟩ := eq_of_isDirect direct left
    obtain ⟨e, other, rightName⟩ := eq_of_isDirect direct right
    cases single.symm.trans other
    exact lowerable.apart q self j member (leftName.trans rightName.symm)
  refine ⟨rfl, rfl, rfl, ?_, ?_, fun entry member => ?_⟩
  · rw [cteParents, if_pos direct]
    rfl
  · simp [toCte, noJoins]
  · obtain ⟨⟨address, names⟩, listed, rfl⟩ := List.mem_map.mp member
    cases names with
    | nil => exact .inl rfl
    | cons name rest =>
      obtain ⟨d, single, same⟩ := eq_of_isDirect direct
        (lowerable.reads q self _ listed name List.mem_cons_self)
      exact .inr (.inr ⟨d, Cte.datasource?_eq_some.mpr single, same⟩)

/-- The expression of a query that reads those of its sources. -/
theorem stands_wrapping {q : Query} (lowerable : Lowerable maxLength [q])
    (wraps : Source.isDirect q.sources = false) :
    Cte.Stands maxLength q (q.toCte maxLength (some (cteSources maxLength q.sources))) := by
  have self : q ∈ [q] := List.mem_cons_self
  have parents : (q.toCte maxLength (some (cteSources maxLength q.sources))).parents =
      q.sources.map (·.cteName maxLength) := by
    simp [toCte, cteSources]
  have renamed {name : String} (own : name ∈ Source.names q.sources) (otherwise : String) :
      ((NameMap.ofList (cteSources maxLength q.sources)).get? name).getD otherwise ∈
        q.sources.map (·.cteName maxLength) := by
    obtain ⟨cte, held, member⟩ := exists_get?_cteSources maxLength own
    rwa [held]
  refine ⟨rfl, rfl, rfl, ?_, fun j member => ?_, fun entry member => ?_⟩
  · rw [parents, cteParents, wraps]
    rfl
  · obtain ⟨join, listed, rfl⟩ := List.mem_map.mp member
    obtain ⟨left, right⟩ := lowerable.joins q self join listed
    rw [parents]
    exact ⟨renamed left _, renamed right _⟩
  · obtain ⟨⟨address, names⟩, listed, rfl⟩ := List.mem_map.mp member
    cases names with
    | nil => exact .inl rfl
    | cons name rest =>
      rw [parents]
      exact .inr (.inl (renamed (lowerable.reads q self _ listed name List.mem_cons_self) _))

/-- No expression below a query has its name. -/
theorem cteName_ne_of_below {q u : Query} (coherent : Coherent maxLength q.units)
    (wraps : Source.isDirect q.sources = false) (below : u ∈ Source.unitsAll q.sources) :
    u.cteName maxLength ≠ q.cteName maxLength := by
  intro same
  obtain ⟨s, source, inside⟩ := Source.mem_unitsAll.mp below
  have shorter := extent_lt wraps source inside
  have names := (coherent.named u (mem_units_of_below wraps below) q q.mem_units_self same).2.1
  rw [extent_eq, extent_eq, names] at shorter
  exact Nat.lt_irrefl _ shorter

/-- The expressions of the sources are merged, and that of the query follows them. -/
theorem lowered_of_sources {q : Query} {ctes : List Cte} (lowerable : Lowerable maxLength q.units)
    (wraps : Source.isDirect q.sources = false)
    (stands : ∀ cte ∈ ctes, ∃ u ∈ Source.unitsAll q.sources, Cte.Stands maxLength u cte)
    (ordered : Cte.parentsFirst [] ctes = true)
    (complete : ∀ s ∈ q.sources, s.cteName maxLength ∈ ctes.map (·.name)) :
    ∃ before,
      Cte.mergeAll (ctes ++ [q.toCte maxLength (some (cteSources maxLength q.sources))]) =
        .ok (before ++ [q.toCte maxLength (some (cteSources maxLength q.sources))]) ∧
      Cte.Lowered maxLength q.units
        (before ++ [q.toCte maxLength (some (cteSources maxLength q.sources))]) := by
  let own := q.toCte maxLength (some (cteSources maxLength q.sources))
  have ownStands : Cte.Stands maxLength q own := by
    refine stands_wrapping (lowerable.mono fun u member => ?_) wraps
    rw [List.mem_singleton.mp member]
    exact q.mem_units_self
  have none : Cte.Lowered maxLength q.units [] := ⟨by simp, by simp, rfl⟩
  obtain ⟨before, merged, lowered, names⟩ := none.absorbAll lowerable (fun cte member => by
    obtain ⟨u, listed, standing⟩ := stands cte member
    exact ⟨u, mem_units_of_below wraps listed, standing⟩) ordered
  have named : ∀ name, name ∈ before.map (·.name) ↔ name ∈ ctes.map (·.name) := by simpa using names
  -- so it is not merged into an expression of the sources
  have new : own.name ∉ before.map (·.name) := by
    intro member
    obtain ⟨cte, listed, same⟩ := List.mem_map.mp ((named _).mp member)
    obtain ⟨u, inside, standing⟩ := stands cte listed
    exact cteName_ne_of_below lowerable.toCoherent wraps inside
      (standing.name.symm.trans (same.trans ownStands.name))
  refine ⟨before, ?_, lowered.concat q.mem_units_self ownStands (fun parent member => ?_) new⟩
  · rw [Cte.mergeAll_concat, Cte.mergeAll, merged]
    exact Cte.absorb_new new
  · rw [ownStands.parents, cteParents, wraps] at member
    obtain ⟨s, source, rfl⟩ := List.mem_map.mp member
    exact (named _).mpr (complete s source)

end Query

mutual

/-- Lowering succeeds, with the expression of the query as the last. -/
theorem Query.exists_lower {maxLength : Nat} : (q : Query) → Lowerable maxLength q.units →
    ∃ before parents, q.lower maxLength = .ok (before ++ [q.toCte maxLength parents]) ∧
      Cte.Lowered maxLength q.units (before ++ [q.toCte maxLength parents])
  | ⟨inputs, outputs, sourceMap, sources, grain, joins, sourceType, partials, condition, limit⟩,
    lowerable => by
    let q : Query :=
      ⟨inputs, outputs, sourceMap, sources, grain, joins, sourceType, partials, condition, limit⟩
    cases direct : Source.isDirect sources with
    | true =>
      have stands := Query.stands_direct (q := q) (lowerable.mono fun u member => by
        rw [List.mem_singleton.mp member]
        exact q.mem_units_self) direct
      exact ⟨[], none, Query.lower_of_direct direct,
        Cte.lowered_single stands q.mem_units_self rfl⟩
    | false =>
      obtain ⟨ctes, sourcesLowered, stands, ordered, complete⟩ := Source.exists_lowerAll sources
        (lowerable.mono fun u below => Query.mem_units_of_below (q := q) direct below)
      obtain ⟨before, merged, lowered⟩ :=
        Query.lowered_of_sources (q := q) lowerable direct stands ordered complete
      refine ⟨before, _, ?_, lowered⟩
      rw [Query.lower_of_wrapping (q := q) direct, sourcesLowered]
      exact merged

theorem Source.exists_lower {maxLength : Nat} : (s : Source) → Lowerable maxLength s.units →
    ∃ before last, s.lower maxLength = .ok (before ++ [last]) ∧
      last.name = s.cteName maxLength ∧ Cte.Lowered maxLength s.units (before ++ [last])
  | .datasource d, lowerable => by
    rw [Source.units] at lowerable ⊢
    have stands := Query.stands_direct lowerable rfl
    refine ⟨[], d.query.toCte maxLength none, ?_, rfl, ?_⟩
    · rw [Source.lower, Query.ofDatasource_eq]
      rfl
    · exact Cte.lowered_single stands (by simp) rfl
  | .query q, lowerable => by
    rw [Source.units] at lowerable ⊢
    obtain ⟨before, parents, lowered, facts⟩ := Query.exists_lower q lowerable
    exact ⟨before, _, lowered, rfl, facts⟩

theorem Source.exists_lowerAll {maxLength : Nat} : (ss : List Source) →
    Lowerable maxLength (Source.unitsAll ss) →
    ∃ ctes, Source.lowerAll maxLength ss = .ok (Query.cteSources maxLength ss, ctes) ∧
      (∀ cte ∈ ctes, ∃ u ∈ Source.unitsAll ss, Cte.Stands maxLength u cte) ∧
      Cte.parentsFirst [] ctes = true ∧ ∀ s ∈ ss, s.cteName maxLength ∈ ctes.map (·.name)
  | [], _ => by
    rw [Source.lowerAll]
    exact ⟨[], rfl, by simp, rfl, by simp⟩
  | s :: ss, lowerable => by
    rw [Source.unitsAll] at lowerable ⊢
    obtain ⟨before, last, lowered, name, facts⟩ :=
      Source.exists_lower s (lowerable.mono fun u member => List.mem_append_left _ member)
    obtain ⟨more, others, stands, ordered, complete⟩ :=
      Source.exists_lowerAll ss (lowerable.mono fun u member => List.mem_append_right _ member)
    refine ⟨(before ++ [last]) ++ more, ?_, fun cte member => ?_, ?_, fun t member => ?_⟩
    · have first : s.cteOf (before ++ [last]) = some (s.name, s.cteName maxLength) := by
        simp [Source.cteOf, name]
      rw [Source.lowerAll, lowered, others]
      simp only [bind, Except.bind, first]
      rfl
    · rcases List.mem_append.mp member with own | later
      · obtain ⟨u, listed, standing⟩ := facts.stands cte own
        exact ⟨u, List.mem_append_left _ listed, standing⟩
      · obtain ⟨u, listed, standing⟩ := stands cte later
        exact ⟨u, List.mem_append_right _ listed, standing⟩
    · exact Cte.parentsFirst_append.mpr
        ⟨facts.ordered, Cte.parentsFirst_mono (by simp) ordered⟩
    · rw [List.map_append, List.mem_append]
      rcases List.mem_cons.mp member with rfl | member
      · exact .inl (by simp [name])
      · exact .inr (complete t member)

end

/-- Lowering a query yields a closed and ordered list of expressions. -/
theorem Query.lower_closed {maxLength : Nat} {q : Query}
    (lowerable : Lowerable maxLength q.units) :
    ∃ ctes, q.lower maxLength = .ok ctes ∧ (ctes.map (·.name)).Nodup ∧
      (∃ last, ctes.getLast? = some last ∧ last.name = q.cteName maxLength ∧ last.source = q) ∧
      Cte.parentsFirst [] ctes = true ∧
      ∀ cte ∈ ctes, (∀ j ∈ cte.joins, j.left ∈ cte.parents ∧ j.right ∈ cte.parents) ∧
        ∀ entry ∈ cte.sourceMap.entries, entry.2 = "" ∨ entry.2 ∈ cte.parents ∨
          ∃ d, cte.datasource? = some d ∧ entry.2 = d.fullName := by
  obtain ⟨before, parents, lowered, facts⟩ := Query.exists_lower q lowerable
  refine ⟨_, lowered, facts.distinct, ⟨_, List.getLast?_concat, rfl, rfl⟩, facts.ordered, ?_⟩
  intro cte member
  obtain ⟨u, _, stands⟩ := facts.stands cte member
  exact ⟨stands.joins, stands.reads⟩

namespace Named

def key : Concept := .key "a" .integer

def table (identifier : String) : Source := .datasource (.table identifier [⟨"a", key, []⟩])

/-- A query of the key from the first of its sources. -/
def query (sources : List Source) (joins : List SourceJoin) : Query :=
  ⟨[key], [key], .ofList [(key.address, (sources.head?.map (·.name)).toList)], sources,
    .of [key], joins, .merge, [], none, none⟩

/-- Two tables, joined. -/
def joined : Query := query [table "x", table "y"] [⟨"x", "y", [key], .inner⟩]

/-- A query of a table beside a query of another query that has the name of the table. -/
def shadowed : Query :=
  query [.query (query [table "y_at_a"] []), .query (query [.query (query [table "y"] [])] [])] []

/-- A table that is joined with itself. -/
def looped : Query := query [table "x"] [⟨"x", "x", [key], .inner⟩]

end Named

theorem Query.lower_closed_joined :
    ∃ ctes, Named.joined.lower 63 = .ok ctes ∧ (ctes.map (·.name)).Nodup ∧
      (∃ last, ctes.getLast? = some last ∧ last.name = Named.joined.cteName 63 ∧
        last.source = Named.joined) ∧
      Cte.parentsFirst [] ctes = true ∧
      ∀ cte ∈ ctes, (∀ j ∈ cte.joins, j.left ∈ cte.parents ∧ j.right ∈ cte.parents) ∧
        ∀ entry ∈ cte.sourceMap.entries, entry.2 = "" ∨ entry.2 ∈ cte.parents ∨
          ∃ d, cte.datasource? = some d ∧ entry.2 = d.fullName := by
  have bases : ∀ u ∈ Named.joined.units, ∀ v ∈ Named.joined.units, u.cteBase 63 = v.cteBase 63 →
      (u.identifier = v.identifier ∧ Source.names u.sources = Source.names v.sources ∧
        u.grain.same v.grain = true) ∧ Source.alikeAll u.sources v.sources = true := by
    decide +kernel
  refine Query.lower_closed
    { joins := by decide +kernel
      reads := by decide +kernel
      named := fun u member v other same => (bases u member v other (Query.cteBase_eq same)).1
      apart := by decide +kernel
      alike := fun u member v other same => (bases u member v other (Query.cteBase_eq same)).2 }

/-- Without alike sources an expression can come before its parents, and a source that is joined
with itself need not be a parent. -/
theorem Query.lower_shadowed :
    (Coherent 63 Named.shadowed.units ∧
      ∃ ctes, Named.shadowed.lower 63 = .ok ctes ∧ Cte.parentsFirst [] ctes = false) ∧
    Coherent 63 Named.looped.units ∧
      ∃ cte, Named.looped.lower 63 = .ok [cte] ∧ ∃ j ∈ cte.joins, j.left ∉ cte.parents := by
  have bases : ∀ u ∈ Named.shadowed.units, ∀ v ∈ Named.shadowed.units,
      u.cteBase 63 = v.cteBase 63 → u.identifier = v.identifier ∧
        Source.names u.sources = Source.names v.sources ∧ u.grain.same v.grain = true := by
    decide +kernel
  have disordered : (Named.shadowed.lower 63).toOption.any
      (fun ctes => !Cte.parentsFirst [] ctes) = true := by decide +kernel
  refine ⟨⟨⟨by decide +kernel, by decide +kernel,
    fun u member v other same => bases u member v other (Query.cteBase_eq same)⟩, ?_⟩,
    ⟨by decide +kernel, by decide +kernel, fun u member v other _ => ?_⟩, ?_⟩
  · cases lowered : Named.shadowed.lower 63 with
    | error e =>
      rw [lowered] at disordered
      cases disordered
    | ok ctes =>
      rw [lowered] at disordered
      exact ⟨ctes, rfl, by simpa [Except.toOption] using disordered⟩
  · cases List.mem_singleton.mp member
    cases List.mem_singleton.mp other
    exact ⟨rfl, rfl, by decide +kernel⟩
  · exact ⟨_, lower_of_direct rfl, ⟨"x", "x", .inner, [Named.key]⟩, List.mem_singleton.mpr rfl,
      List.not_mem_nil⟩

end SemanticQuery
