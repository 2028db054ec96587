import SemanticQuery.Cte.Lower
import SemanticQuery.Proofs.Fold
import SemanticQuery.Proofs.Resolution

/-!
The queries that a query is lowered with: its own, and those of its sources unless it reads a single
datasource directly. A datasource among other sources stands for the query that selects its columns.
The name of a query contains the names of its sources, so no query below it has the same sources.
-/

namespace SemanticQuery

/-- The query that selects all columns of a datasource. -/
def Datasource.query (d : Datasource) : Query :=
  ⟨Concept.unique d.concepts, Concept.unique d.concepts,
    .ofList (d.concepts.map fun c => (c.address, [d.fullName])), [.datasource d], d.grain, [],
    .directSelect, [], none, none⟩

theorem Query.ofDatasource_eq (d : Datasource) : Query.ofDatasource d = .ok d.query := by
  refine Query.of_eq_ok.mpr ⟨misfit?_ofList (by simp) fun address => ?_, rfl⟩
  simp only [Concept.addresses, List.map_append, List.mem_append, or_self]
  exact Concept.mem_addresses_unique.symm

mutual

/-- The queries that expressions are made for, the query itself first. -/
def Query.units : Query → List Query
  | ⟨inputs, outputs, sourceMap, sources, grain, joins, sourceType, partials, condition, limit⟩ =>
    ⟨inputs, outputs, sourceMap, sources, grain, joins, sourceType, partials, condition, limit⟩ ::
      if Source.isDirect sources then [] else Source.unitsAll sources

def Source.units : Source → List Query
  | .datasource d => [d.query]
  | .query q => q.units

def Source.unitsAll : List Source → List Query
  | [] => []
  | s :: ss => s.units ++ Source.unitsAll ss

end

theorem Query.units_eq (q : Query) :
    q.units = q :: if Source.isDirect q.sources then [] else Source.unitsAll q.sources := by
  cases q
  rw [units]

theorem Query.mem_units_self (q : Query) : q ∈ q.units := by
  rw [units_eq]
  exact List.mem_cons_self

theorem Source.mem_unitsAll {ss : List Source} {u : Query} :
    u ∈ unitsAll ss ↔ ∃ s ∈ ss, u ∈ s.units := by
  induction ss with
  | nil => simp [unitsAll]
  | cons s ss ih => simp [unitsAll, ih]

theorem Query.mem_units_of_below {q u : Query} (wraps : Source.isDirect q.sources = false)
    (below : u ∈ Source.unitsAll q.sources) : u ∈ q.units := by
  rw [units_eq, wraps]
  exact List.mem_cons_of_mem _ below

mutual

theorem Query.length_units_le {u : Query} :
    (q : Query) → u ∈ q.units → u.units.length ≤ q.units.length
  | ⟨inputs, outputs, sourceMap, sources, grain, joins, sourceType, partials, condition, limit⟩,
    member => by
    rw [Query.units] at member
    rcases List.mem_cons.mp member with rfl | below
    · exact Nat.le_refl _
    · split at below
      · cases below
      · next wraps =>
        rw [Query.units, if_neg wraps, List.length_cons]
        exact Nat.le_succ_of_le (Source.length_units_le_unitsAll sources below)

theorem Source.length_units_le {u : Query} :
    (s : Source) → u ∈ s.units → u.units.length ≤ s.units.length
  | .datasource d, member => by
    rw [Source.units] at member ⊢
    cases List.mem_singleton.mp member
    rw [Query.units_eq]
    exact Nat.le_refl 1
  | .query q, member => by
    rw [Source.units] at member ⊢
    exact Query.length_units_le q member

theorem Source.length_units_le_unitsAll {u : Query} :
    (ss : List Source) → u ∈ Source.unitsAll ss →
      u.units.length ≤ (Source.unitsAll ss).length
  | [], member => by
    rw [Source.unitsAll] at member
    cases member
  | s :: ss, member => by
    rw [Source.unitsAll] at member ⊢
    rw [List.length_append]
    rcases List.mem_append.mp member with first | later
    · exact Nat.le_add_right_of_le (Source.length_units_le s first)
    · exact Nat.le_add_left_of_le (Source.length_units_le_unitsAll ss later)

end

/-- A query is lowered with more queries than any query below it. -/
theorem Query.length_units_lt {q u : Query} (wraps : Source.isDirect q.sources = false)
    (below : u ∈ Source.unitsAll q.sources) : u.units.length < q.units.length := by
  have inside := Source.length_units_le_unitsAll q.sources below
  rw [q.units_eq, wraps, List.length_cons]
  exact Nat.lt_succ_of_le inside

theorem Source.isDirect_of_agreesAll {ss ts : List Source}
    (agree : Source.agreesAll ss ts = true) : Source.isDirect ss = Source.isDirect ts := by
  rcases ss with _ | ⟨s, _ | ⟨s', ss⟩⟩ <;> rcases ts with _ | ⟨t, _ | ⟨t', ts⟩⟩ <;>
    simp [Source.agreesAll] at agree
  · rfl
  · cases s <;> cases t <;> simp [Source.agrees] at agree <;> rfl
  · rw [isDirect, isDirect] <;> simp

mutual

/-- Queries that agree are lowered with equally many queries. -/
theorem Query.length_units_of_agrees :
    (q r : Query) → q.agrees r = true → q.units.length = r.units.length
  | ⟨inputs, outputs, sourceMap, sources, grain, joins, sourceType, partials, condition, limit⟩,
    r, agree => by
    have inside : Source.agreesAll sources r.sources = true := by
      simp only [Query.agrees, Bool.and_eq_true] at agree
      exact agree.1.1.1.1.1.1.2
    rw [Query.units, Query.units_eq r, List.length_cons, List.length_cons,
      Source.isDirect_of_agreesAll inside]
    split
    · rfl
    · rw [Source.length_unitsAll_of_agreesAll sources r.sources inside]

theorem Source.length_units_of_agrees :
    (s t : Source) → s.agrees t = true → s.units.length = t.units.length
  | .datasource d, .datasource e, _ => by
    rw [Source.units, Source.units]
    rfl
  | .query q, .query r, agree => by
    rw [Source.agrees] at agree
    rw [Source.units, Source.units]
    exact Query.length_units_of_agrees q r agree
  | .datasource _, .query _, agree => by simp [Source.agrees] at agree
  | .query _, .datasource _, agree => by simp [Source.agrees] at agree

theorem Source.length_unitsAll_of_agreesAll :
    (ss ts : List Source) → Source.agreesAll ss ts = true →
      (Source.unitsAll ss).length = (Source.unitsAll ts).length
  | [], [], _ => rfl
  | s :: ss, t :: ts, agree => by
    rw [Source.agreesAll, Bool.and_eq_true] at agree
    rw [Source.unitsAll, Source.unitsAll, List.length_append, List.length_append,
      Source.length_units_of_agrees s t agree.1,
      Source.length_unitsAll_of_agreesAll ss ts agree.2]
  | [], _ :: _, agree => by simp [Source.agreesAll] at agree
  | _ :: _, [], agree => by simp [Source.agreesAll] at agree

end

/-- The name of the expression of a source. -/
def Source.cteName (maxLength : Nat) : Source → String
  | .datasource d => d.query.cteName maxLength
  | .query q => q.cteName maxLength

theorem Source.names_eq (ss : List Source) : Source.names ss = ss.map Source.name := by
  induction ss with
  | nil => rw [names, List.map_nil]
  | cons s ss ih => rw [names, ih, List.map_cons]

theorem Query.identifier_eq (q : Query) :
    q.identifier = nameOf (Source.names q.sources) q.grain q.sourceType q.condition := by
  cases q
  rw [identifier]

theorem length_fingerprint (j : Json) : j.fingerprint.toList.length = 8 := by
  simp [Json.fingerprint, shortDigest, digestChars, Sha256.State.hex, Sha256.hexWord]

/-- The readable part of the name of an expression. -/
def Query.cteBase (maxLength : Nat) (q : Query) : List Char :=
  (("cte_" ++ q.identifier).toList.map fun c => if c.isAlphanum then c else '_').take
    (Cte.baseLength maxLength)

/-- Expressions of one name have the same readable part, as fingerprints are of one length. -/
theorem Query.cteBase_eq {maxLength : Nat} {q r : Query}
    (same : q.cteName maxLength = r.cteName maxLength) :
    q.cteBase maxLength = r.cteBase maxLength := by
  have chars (q : Query) : (q.cteName maxLength).toList =
      q.cteBase maxLength ++ ('_' :: (Json.string q.identifier).fingerprint.toList) := by
    simp [cteName, cteBase]
  have equal := congrArg String.toList same
  rw [chars, chars] at equal
  exact List.append_inj_left' equal (by simp [length_fingerprint])

/-- The length of the name of a query, which is the same for all conditions. -/
def Query.nameLength (q : Query) : Nat :=
  (nameOf (Source.names q.sources) q.grain q.sourceType none).length +
    if q.condition.isSome then 21 else 0

theorem Query.length_identifier (q : Query) : q.identifier.length = q.nameLength := by
  rw [identifier_eq, nameLength]
  cases q.condition with
  | none => rfl
  | some condition =>
    have digits : condition.fingerprint.length = 8 := length_fingerprint condition.toJson
    have marker : "_filtered_by_".length = 13 := by decide
    simp only [nameOf, String.length_append, digits, marker]
    rfl

/-- Expressions of one name are of queries with names of one length, unless these were cut. -/
theorem Query.nameLength_eq {maxLength : Nat} {q r : Query}
    (same : q.cteName maxLength = r.cteName maxLength) (whole : q.nameLength + 13 ≤ maxLength)
    (otherWhole : r.nameLength + 13 ≤ maxLength) : q.nameLength = r.nameLength := by
  have length {q : Query} (whole : q.nameLength + 13 ≤ maxLength) :
      (q.cteBase maxLength).length = q.nameLength + 4 := by
    rw [← length_identifier] at whole ⊢
    have marker : "cte_".length = 4 := by decide
    rw [cteBase, List.length_take, List.length_map, String.length_toList, String.length_append,
      marker, Cte.baseLength]
    omega
  have equal := congrArg List.length (cteBase_eq same)
  rw [length whole, length otherWhole] at equal
  omega

/-- If a query has a longer name than those below it, a relation holds between queries with
expressions of one name as soon as it holds between those below it with names of one length. -/
theorem Query.rel_of_cteName_eq {R : Query → Query → Prop} {maxLength : Nat} {q : Query}
    (whole : ∀ u ∈ q.units, u.nameLength + 13 ≤ maxLength)
    (longer : ∀ u ∈ Source.unitsAll q.sources, u.nameLength < q.nameLength) (own : R q q)
    (below : ∀ u ∈ Source.unitsAll q.sources, ∀ v ∈ Source.unitsAll q.sources,
      u.nameLength = v.nameLength → R u v) :
    ∀ u ∈ q.units, ∀ v ∈ q.units, u.cteName maxLength = v.cteName maxLength → R u v := by
  intro u first v second same
  have lengths := nameLength_eq same (whole u first) (whole v second)
  have split {u : Query} (member : u ∈ q.units) : u = q ∨ u ∈ Source.unitsAll q.sources := by
    rw [units_eq] at member
    rcases List.mem_cons.mp member with rfl | inside
    · exact .inl rfl
    · split at inside
      · cases inside
      · exact .inr inside
  rcases split first with rfl | first <;> rcases split second with rfl | second
  · exact own
  · exact absurd lengths (Nat.ne_of_gt (longer v second))
  · exact absurd lengths (Nat.ne_of_lt (longer u first))
  · exact below u first v second lengths

/-- The length of the names of the sources, each with a separator. -/
def Query.extent (q : Query) : Nat := total (q.sources.map (·.name.length + 1))

theorem Query.extent_eq (q : Query) :
    q.extent = total ((Source.names q.sources).map (·.length + 1)) := by
  rw [extent, Source.names_eq, List.map_map]
  rfl

theorem total_le_length_intercalate {names : List String} (some : names ≠ []) :
    total (names.map (·.length + 1)) ≤ ("_join_".intercalate names).length + 1 := by
  induction names with
  | nil => exact absurd rfl some
  | cons name names ih =>
    cases names with
    | nil => simp [total]
    | cons next rest =>
      have shorter := ih (by simp)
      rw [String.intercalate_cons_cons, String.length_append, String.length_append]
      have separator : "_join_".length = 6 := by decide
      simp only [List.map_cons, total] at shorter ⊢
      omega

/-- The name of a query contains the names of its sources. -/
theorem Query.extent_le_length_identifier (q : Query) : q.extent ≤ q.identifier.length := by
  rw [extent_eq, identifier_eq]
  unfold nameOf
  have marker : "_at_".length = 4 := by decide
  by_cases none : Source.names q.sources = []
  · simp [none, total]
  · have := total_le_length_intercalate none
    simp only [List.isEmpty_iff, none, if_false, String.length_append]
    omega

mutual

/-- No query below another has longer source names. -/
theorem Query.extent_le_of_mem_units {u : Query} :
    (q : Query) → u ∈ q.units → u.extent ≤ q.extent
  | ⟨inputs, outputs, sourceMap, sources, grain, joins, sourceType, partials, condition, limit⟩,
    member => by
    rw [Query.units] at member
    rcases List.mem_cons.mp member with rfl | below
    · exact Nat.le_refl _
    · split at below
      · cases below
      · exact Source.extent_le_of_mem_unitsAll sources below

theorem Source.extent_le_of_mem_units {u : Query} :
    (s : Source) → u ∈ s.units → u.extent ≤ s.name.length + 1
  | .datasource d, member => by
    rw [Source.units] at member
    rw [List.mem_singleton.mp member]
    simp [Query.extent, Datasource.query, total]
  | .query q, member => by
    rw [Source.units] at member
    have inside := Query.extent_le_of_mem_units q member
    have named := q.extent_le_length_identifier
    rw [Source.name]
    omega

theorem Source.extent_le_of_mem_unitsAll {u : Query} :
    (ss : List Source) → u ∈ Source.unitsAll ss → u.extent ≤ total (ss.map (·.name.length + 1))
  | [], member => by
    rw [Source.unitsAll] at member
    cases member
  | s :: ss, member => by
    rw [Source.unitsAll] at member
    rw [List.map_cons, total]
    rcases List.mem_append.mp member with first | later
    · have := Source.extent_le_of_mem_units s first
      omega
    · have := Source.extent_le_of_mem_unitsAll ss later
      omega

end

/-- A query that reads expressions has longer source names than the queries below it. -/
theorem Query.extent_lt {q u : Query} {s : Source} (wraps : Source.isDirect q.sources = false)
    (listed : s ∈ q.sources) (below : u ∈ s.units) : u.extent < q.extent := by
  have bounded := Source.extent_le_of_mem_units s below
  have counted : s.name.length + 1 ≤ q.extent :=
    le_total_of_mem (List.mem_map_of_mem (f := (·.name.length + 1)) listed)
  cases s with
  | query r =>
    rw [Source.units] at below
    have inside := Query.extent_le_of_mem_units r below
    have named := r.extent_le_length_identifier
    rw [Source.name] at counted
    omega
  | datasource d =>
    -- a datasource that is not read directly is one of several sources
    rcases sources : q.sources with _ | ⟨first, _ | ⟨second, rest⟩⟩
    · rw [sources] at listed
      cases listed
    · rw [sources] at listed wraps
      rw [← List.mem_singleton.mp listed] at wraps
      cases wraps
    · refine Nat.lt_of_le_of_lt bounded ?_
      rw [extent, sources]
      rw [sources] at listed
      simp only [List.map_cons, total]
      rcases List.mem_cons.mp listed with rfl | listed
      · omega
      · have := le_total_of_mem (List.mem_map_of_mem (f := (·.name.length + 1)) listed)
        simp only [List.map_cons, total] at this
        omega

end SemanticQuery
