import SemanticQuery.Proofs.Fold

/-!
The forms in which a search can meet a concept. Grains are recomputed along the way, so a concept is
met not only as it was declared: a grain lists its components at their default grains, the grain of
a key lists the key without a grain, and an aligned select evaluates its aggregates at its own
grain. The forms of a concept and of all concepts inside it are finitely many, and no step from a
concept to what it reads or to its grain leads out of them.
-/

namespace SemanticQuery

namespace Concept

@[simp] theorem address_withGrain (c : Concept) (g : Grain) : (c.withGrain g).address = c.address :=
  rfl

@[simp] theorem lineage_withGrain (c : Concept) (g : Grain) : (c.withGrain g).lineage = c.lineage :=
  rfl

@[simp] theorem purpose_withGrain (c : Concept) (g : Grain) : (c.withGrain g).purpose = c.purpose :=
  rfl

@[simp] theorem reads_withGrain (c : Concept) (g : Grain) : (c.withGrain g).reads = c.reads := rfl

@[simp] theorem components_withGrain (c : Concept) (g : Grain) :
    (c.withGrain g).grain.components = g.components := rfl

@[simp] theorem withGrain_withGrain (c : Concept) (g h : Grain) :
    (c.withGrain g).withGrain h = c.withGrain h := rfl

@[simp] theorem hasGroupBy_withGrain (c : Concept) (g : Grain) :
    (c.withGrain g).hasGroupBy = c.hasGroupBy := rfl

theorem graded_eq (c : Concept) : c.graded = Graded.ofParts c (c.folded Graded.ofParts) :=
  fold_eq Graded.ofParts c

/-- Only constants and undecided concepts take their default grain from the grain they are given. -/
theorem defaultGrain_withGrain (c : Concept) (g : Grain) :
    (c.withGrain g).defaultGrain = c.defaultGrain ∨ (c.withGrain g).defaultGrain = g := by
  rw [defaultGrain, defaultGrain, graded_eq, graded_eq]
  cases h : c.purpose with
  | key => left; simp [Graded.ofParts, h]
  | property => left; simp [Graded.ofParts, h, folded, withGrain]
  | metric => left; simp [Graded.ofParts, h, folded]; rfl
  | constant => right; simp [Graded.ofParts, h]; rfl
  | auto => right; simp [Graded.ofParts, h]; rfl

/-- The default grain of a concept at another grain adds no new form of it. -/
theorem withDefaultGrain_withGrain (c : Concept) (g : Grain) :
    (c.withGrain g).withDefaultGrain = c.withDefaultGrain ∨
      (c.withGrain g).withDefaultGrain = c.withGrain g := by
  rcases defaultGrain_withGrain c g with same | same
  · left
    rw [withDefaultGrain, same, withGrain_withGrain, withDefaultGrain]
  · right
    rw [withDefaultGrain, same, withGrain_withGrain]

theorem defaultGrain_withDefaultGrain (c : Concept) :
    c.withDefaultGrain.defaultGrain = c.defaultGrain := by
  rcases defaultGrain_withGrain c c.defaultGrain with same | same <;> exact same

theorem withDefaultGrain_withDefaultGrain (c : Concept) :
    c.withDefaultGrain.withDefaultGrain = c.withDefaultGrain := by
  rw [withDefaultGrain, defaultGrain_withDefaultGrain]
  rfl

/-- Concepts that stand at their default grains stay as they are. -/
theorem map_withDefaultGrain {cs : List Concept} (settled : ∀ c ∈ cs, c.withDefaultGrain = c) :
    cs.map withDefaultGrain = cs :=
  (List.map_congr_left settled).trans (List.map_id cs)

theorem regrain_eq (grain : Grain) (c : Concept) :
    c.regrain grain = c ∨ c.regrain grain = c.withGrain grain := by
  unfold regrain
  split
  · exact .inr rfl
  · exact .inl rfl

@[simp] theorem lineage_regrain (grain : Grain) (c : Concept) :
    (c.regrain grain).lineage = c.lineage := by
  rcases regrain_eq grain c with same | same <;> rw [same]
  rfl

@[simp] theorem reads_regrain (grain : Grain) (c : Concept) :
    (c.regrain grain).reads = c.reads := by
  rcases regrain_eq grain c with same | same <;> rw [same]
  rfl

end Concept

namespace Grain

theorem mem_of_mem_canonical {cs : List Concept} {c : Concept} (member : c ∈ canonical cs) :
    c ∈ cs := (List.mem_filter.mp member).1

/-- A canonical grain lists concepts at their default grains. -/
theorem exists_of_mem_of {cs : List Concept} {c : Concept} (member : c ∈ (of cs).components) :
    ∃ d ∈ cs, c = d.withDefaultGrain := by
  obtain ⟨d, kept, rfl⟩ := List.mem_map.mp (mem_of_mem_canonical member)
  exact ⟨d, Concept.mem_of_mem_unique kept, rfl⟩

theorem withDefaultGrain_of_mem_of {cs : List Concept} {c : Concept}
    (member : c ∈ (of cs).components) : c.withDefaultGrain = c := by
  obtain ⟨d, _, rfl⟩ := exists_of_mem_of member
  exact Concept.withDefaultGrain_withDefaultGrain d

end Grain

namespace Graded

theorem mem_of_mem_settle {cs : List Concept} {c : Concept}
    (member : c ∈ (settle cs).grain.components) : c ∈ cs :=
  Concept.mem_of_mem_unique (Grain.mem_of_mem_canonical member)

/-- Settling concepts at their default grains gives their canonical grain. -/
theorem settle_map_withDefaultGrain (cs : List Concept) :
    settle (cs.map Concept.withDefaultGrain) = ⟨.of cs, (Grain.of cs).components⟩ := by
  rw [settle, Concept.unique, Names.uniqueOn_map Concept.address]
  rfl

end Graded

/-- The grain of a statement lists outputs of its items at their default grains. -/
theorem Select.exists_of_mem_grain {s : Select} {c : Concept} (member : c ∈ s.grain.components) :
    ∃ item ∈ s.selection, c = item.output.withDefaultGrain := by
  obtain ⟨d, selected, rfl⟩ := Grain.exists_of_mem_of member
  have kept := Concept.mem_of_mem_unique (List.mem_filter.mp selected).1
  obtain ⟨item, chosen, rfl⟩ := List.mem_map.mp kept
  exact ⟨item, chosen, rfl⟩

theorem Select.exists_of_mem_outputs {s : Select} {c : Concept} (member : c ∈ s.outputs) :
    ∃ item ∈ s.selection, c = item.output.regrain s.grain := by
  obtain ⟨item, visible, rfl⟩ := List.mem_map.mp (Concept.mem_of_mem_unique member)
  exact ⟨item, (List.mem_filter.mp visible).1, rfl⟩

namespace Concept

/-- The outputs of the selects that a concept is aligned from, each at the grain of its select. -/
def aligned (c : Concept) : List Concept :=
  match c.lineage with
  | some (.multiSelect multi) =>
    multi.selects.flatMap fun s => s.selection.map (·.output.regrain s.grain)
  | _ => []

/-- The forms of the concept itself, and of the outputs it is aligned from. -/
def forms (c : Concept) : List Concept :=
  [c, c.withDefaultGrain, c.withGrain ∅] ++ c.aligned

/-- What `own` yields for a concept and for all concepts inside it. -/
def collect (own : Concept → List α) (c : Concept) : List α :=
  c.fold fun c parts =>
    own c ++ ((parts.keys ()).map (·.2) ++ ((parts.lineage ()).reads.map (·.2) ++
      (parts.lineage ()).branches.flatten.map (·.2)) ++ (parts.grain ()).map (·.2)).flatten

theorem collect_eq (own : Concept → List α) (c : Concept) :
    c.collect own = own c ++ c.inner.flatMap (collect own) := by
  rw [collect, fold_eq, map_snd_folded, List.flatMap]
  rfl

/-- The concept itself and all concepts inside it. -/
def within (c : Concept) : List Concept := c.collect fun x => [x]

/-- The forms of a concept and of all concepts inside it. -/
def variants (c : Concept) : List Concept := c.collect forms

theorem within_eq (c : Concept) : c.within = c :: c.inner.flatMap within := collect_eq _ c

theorem variants_eq (c : Concept) : c.variants = c.forms ++ c.inner.flatMap variants :=
  collect_eq forms c

theorem length_aligned_le (c : Concept) : c.aligned.length ≤ c.inner.length := by
  unfold aligned inner
  split
  · next multi h =>
    simp [h, Lineage.inner, List.length_flatMap]
    omega
  · simp

/-- There are at most four forms for each concept inside, and one of the four is left over. -/
theorem length_variants_lt (c : Concept) : c.variants.length < 4 * c.weight := by
  induction c using Concept.induction with
  | step c ih =>
    have inside : ∀ cs : List Concept, (∀ x ∈ cs, x.variants.length < 4 * x.weight) →
        (cs.flatMap variants).length + cs.length ≤ 4 * total (cs.map weight) := by
      intro cs bound
      induction cs with
      | nil => simp
      | cons x cs ihs =>
        have first := bound x List.mem_cons_self
        have rest := ihs fun y member => bound y (List.mem_cons_of_mem _ member)
        simp only [List.flatMap_cons, List.length_append, List.length_cons, List.map_cons, total]
        omega
    have := inside c.inner ih
    have := length_aligned_le c
    rw [variants_eq, weight_eq]
    simp only [forms, List.length_append, List.length_cons, List.length_nil]
    omega

theorem mem_variants_self (c : Concept) : c ∈ c.variants := by
  rw [variants_eq]
  simp [forms]

theorem withDefaultGrain_mem_variants (c : Concept) : c.withDefaultGrain ∈ c.variants := by
  rw [variants_eq]
  simp [forms]

theorem mem_variants_of_mem_inner {c x v : Concept} (inside : x ∈ c.inner)
    (member : v ∈ x.variants) : v ∈ c.variants := by
  rw [variants_eq]
  exact List.mem_append_right _ (List.mem_flatMap.mpr ⟨x, inside, member⟩)

theorem mem_inner_of_mem_keys {c k : Concept} (member : k ∈ c.keys) : k ∈ c.inner := by
  simp [inner, member]

theorem mem_inner_of_mem_grain {c x : Concept} (member : x ∈ c.grain.components) :
    x ∈ c.inner := by
  simp [inner, member]

theorem mem_inner_of_mem_lineage {c x : Concept} {lineage : Lineage}
    (derived : c.lineage = some lineage) (member : x ∈ lineage.inner) : x ∈ c.inner := by
  simp [inner, derived, member]

theorem output_mem_inner {c : Concept} {multi : MultiSelect} {s : Select} {item : SelectItem}
    (derived : c.lineage = some (.multiSelect multi)) (branch : s ∈ multi.selects)
    (chosen : item ∈ s.selection) : item.output ∈ c.inner :=
  mem_inner_of_mem_lineage derived
    (List.mem_flatMap.mpr ⟨s, branch, List.mem_map_of_mem chosen⟩)

end Concept

namespace Lineage

theorem exists_of_mem_folded_reads {f : Concept → Parts β → β} {lineage : Lineage}
    {part : Concept × β} (member : part ∈ (lineage.folded f).reads) :
    ∃ x ∈ lineage.inner, part = x.paired f := by
  cases lineage with
  | multiSelect multi => simp [folded] at member
  | call _ | window _ | filter _ _ | aggregate _ =>
    obtain ⟨x, read, rfl⟩ := List.mem_map.mp member
    exact ⟨x, read, rfl⟩

theorem exists_of_mem_folded_groupBy {f : Concept → Parts β → β} {lineage : Lineage}
    {part : Concept × β} (member : part ∈ (lineage.folded f).groupBy) :
    ∃ x ∈ lineage.inner, part = x.paired f := by
  cases lineage with
  | aggregate a =>
    obtain ⟨x, grouped, rfl⟩ := List.mem_map.mp member
    refine ⟨x, ?_, rfl⟩
    cases a
    simp only [inner, reads, Aggregate.reads]
    exact List.mem_append_right _ grouped
  | _ => simp [folded] at member

theorem exists_of_mem_folded_branches {f : Concept → Parts β → β} {lineage : Lineage}
    {items : List (SelectItem × β)} (member : items ∈ (lineage.folded f).branches) :
    ∃ multi, lineage = .multiSelect multi ∧
      ∃ s ∈ multi.selects, items = s.selection.map (·.paired f) := by
  cases lineage with
  | multiSelect multi =>
    obtain ⟨s, branch, rfl⟩ := List.mem_map.mp member
    exact ⟨multi, rfl, s, branch, rfl⟩
  | _ => simp [folded] at member

end Lineage

namespace Graded

/-- The grain of a statement lists outputs at their default grains. -/
theorem exists_of_mem_statement {items : List SelectItem} {c : Concept}
    (member : c ∈ (statement (items.map (·.paired ofParts))).components) :
    ∃ item ∈ items, c = item.output.withDefaultGrain := by
  obtain ⟨part, selected, rfl⟩ := List.mem_map.mp (mem_of_mem_settle member)
  obtain ⟨paired, kept, rfl⟩ :=
    List.mem_map.mp (Names.mem_of_mem_uniqueOn (List.mem_filter.mp selected).1)
  obtain ⟨item, chosen, rfl⟩ := List.mem_map.mp kept
  exact ⟨item, chosen, rfl⟩

/-- An output of an aligned select brings the components of its own default grain, or else those of
the grain of the select. -/
theorem settled_of_mem_outputs {items : List SelectItem} {part : Concept × Graded} {c : Concept}
    (member : part ∈ outputs (items.map (·.paired ofParts))) (settled : c ∈ part.2.settled) :
    ∃ item ∈ items, c ∈ item.output.graded.settled ∨ c = item.output.withDefaultGrain := by
  obtain ⟨paired, kept, rfl⟩ := List.mem_map.mp (Names.mem_of_mem_uniqueOn member)
  obtain ⟨item, chosen, rfl⟩ := List.mem_map.mp (List.mem_filter.mp kept).1
  have atStatement : c ∈ (statement (items.map (·.paired ofParts))).components →
      ∃ item ∈ items, c ∈ item.output.graded.settled ∨ c = item.output.withDefaultGrain := by
    intro listed
    obtain ⟨other, selected, rfl⟩ := exists_of_mem_statement listed
    exact ⟨other, selected, .inr rfl⟩
  dsimp only at settled
  split at settled
  · split at settled
    · exact atStatement settled
    · exact ⟨item, chosen, .inl settled⟩
  · split at settled
    · exact atStatement settled
    · exact ⟨item, chosen, .inl settled⟩
  · exact ⟨item, chosen, .inl settled⟩

end Graded

namespace Concept

theorem regraded_mem_variants {c : Concept} {cs : List Concept} (inside : ∀ y ∈ cs, y ∈ c.inner) :
    ∀ x ∈ (cs.map (·.paired Graded.ofParts)).map Graded.regrade, x ∈ c.variants := by
  intro x member
  obtain ⟨part, paired, rfl⟩ := List.mem_map.mp member
  obtain ⟨y, kept, rfl⟩ := List.mem_map.mp paired
  exact mem_variants_of_mem_inner (inside y kept) (withDefaultGrain_mem_variants y)

/-- What an aggregate is grouped by is, at its default grain, a form of a concept inside it. -/
theorem grouped_mem_variants (c : Concept) :
    ∀ x ∈ ((c.folded Graded.ofParts).lineage ()).groupBy.map Graded.regrade, x ∈ c.variants := by
  intro x member
  obtain ⟨part, listed, rfl⟩ := List.mem_map.mp member
  cases derived : c.lineage with
  | none => simp [folded, derived] at listed
  | some lineage =>
    simp only [folded, derived, Option.map_some, Option.getD_some] at listed
    obtain ⟨y, inside, rfl⟩ := Lineage.exists_of_mem_folded_groupBy listed
    exact mem_variants_of_mem_inner (mem_inner_of_mem_lineage derived inside)
      (withDefaultGrain_mem_variants y)

/-- The settled components of what a derivation reads are forms of concepts inside it. -/
theorem settled_mem_variants {c : Concept}
    (ih : ∀ y ∈ c.inner, ∀ z ∈ y.graded.settled, z ∈ y.variants) :
    ∀ x ∈ (Graded.reads ((c.folded Graded.ofParts).lineage ())).flatMap (·.2.settled),
      x ∈ c.variants := by
  intro x member
  obtain ⟨part, read, settled⟩ := List.mem_flatMap.mp member
  cases derived : c.lineage with
  | none => simp [folded, derived, Graded.reads, Names.uniqueOn, Names.uniqueFrom] at read
  | some lineage =>
    simp only [folded, derived, Option.map_some, Option.getD_some] at read
    rcases List.mem_append.mp read with read | read
    · obtain ⟨y, inside, rfl⟩ := Lineage.exists_of_mem_folded_reads read
      have member := mem_inner_of_mem_lineage derived inside
      exact mem_variants_of_mem_inner member (ih y member x settled)
    · obtain ⟨items, branch, output⟩ := List.mem_flatMap.mp (Names.mem_of_mem_uniqueOn read)
      obtain ⟨multi, rfl, s, selected, rfl⟩ := Lineage.exists_of_mem_folded_branches branch
      obtain ⟨item, chosen, found⟩ := Graded.settled_of_mem_outputs output settled
      have member := output_mem_inner derived selected chosen
      refine mem_variants_of_mem_inner member ?_
      rcases found with settled | rfl
      · exact ih _ member x settled
      · exact withDefaultGrain_mem_variants _

/-- The default grain of a concept, and its components at their default grains, are made of forms of
the concept and of concepts inside it. -/
theorem graded_mem_variants (c : Concept) :
    (∀ x ∈ c.graded.grain.components, x ∈ c.variants) ∧
      ∀ x ∈ c.graded.settled, x ∈ c.variants := by
  induction c using Concept.induction with
  | step c ih =>
    have settle {cs : List Concept} (forms : ∀ x ∈ cs, x ∈ c.variants) :
        (∀ x ∈ (Graded.settle cs).grain.components, x ∈ c.variants) ∧
          ∀ x ∈ (Graded.settle cs).settled, x ∈ c.variants :=
      ⟨fun x member => forms x (Graded.mem_of_mem_settle member),
        fun x member => forms x (Graded.mem_of_mem_settle member)⟩
    rw [graded_eq]
    cases h : c.purpose with
    | key =>
      have bare : c.withGrain ∅ ∈ c.variants := by rw [variants_eq]; simp [forms]
      have graded : c.graded.grain = ⟨[c.withGrain ∅], true⟩ := by
        rw [graded_eq, Graded.ofParts, h]
      have whole : c.withGrain ⟨[c.withGrain ∅], true⟩ ∈ c.variants := by
        rw [← graded]
        exact withDefaultGrain_mem_variants c
      simp [Graded.ofParts, h, bare, whole]
    | property =>
      simp only [Graded.ofParts, h]
      split
      · exact settle (settled_mem_variants fun y inside => (ih y inside).2)
      · exact settle (regraded_mem_variants fun y => mem_inner_of_mem_keys)
    | metric =>
      simp only [Graded.ofParts, h]
      split
      · exact settle (grouped_mem_variants c)
      · exact ⟨fun x member => absurd member List.not_mem_nil,
          fun x member => absurd member List.not_mem_nil⟩
    | constant | auto =>
      simp only [Graded.ofParts, h]
      refine ⟨fun x member => ?_, regraded_mem_variants fun y => mem_inner_of_mem_grain⟩
      exact mem_variants_of_mem_inner (mem_inner_of_mem_grain member) (mem_variants_self x)

/-- A set of concepts that no step of a search leads out of: from a concept to what it reads, to its
grain or its default grain, or to the outputs of the selects it is aligned from. -/
structure Closed (known : Concept → Prop) : Prop where
  reads : ∀ {c x}, known c → x ∈ c.reads → known x
  component : ∀ {c x}, known c → x ∈ c.grain.components → known x
  atDefault : ∀ {c}, known c → known c.withDefaultGrain
  output : ∀ {c x multi s}, known c → c.lineage = some (.multiSelect multi) → s ∈ multi.selects →
    x ∈ s.outputs → known x

theorem mem_variants_of_mem_aligned {c x : Concept} (member : x ∈ c.aligned) : x ∈ c.variants := by
  rw [variants_eq]
  exact List.mem_append_left _ (List.mem_append_right _ member)

theorem mem_aligned_of_mem_outputs {c x : Concept} {multi : MultiSelect} {s : Select}
    (derived : c.lineage = some (.multiSelect multi)) (branch : s ∈ multi.selects)
    (member : x ∈ s.outputs) : x ∈ c.aligned := by
  obtain ⟨item, chosen, rfl⟩ := Select.exists_of_mem_outputs member
  simp only [aligned, derived]
  exact List.mem_flatMap.mpr ⟨s, branch, List.mem_map.mpr ⟨item, chosen, rfl⟩⟩

theorem mem_variants_of_mem_reads {c x : Concept} (member : x ∈ c.reads) : x ∈ c.variants := by
  have direct (lineage : Lineage) (derived : c.lineage = some lineage)
      (inside : x ∈ lineage.inner) : x ∈ c.variants :=
    mem_variants_of_mem_inner (mem_inner_of_mem_lineage derived inside) (mem_variants_self x)
  cases derived : c.lineage with
  | none => simp [reads, derived] at member
  | some lineage =>
    simp only [reads, derived] at member
    cases lineage with
    | multiSelect multi =>
      obtain ⟨s, branch, output⟩ := List.mem_flatMap.mp (mem_of_mem_unique member)
      exact mem_variants_of_mem_aligned (mem_aligned_of_mem_outputs derived branch output)
    | call _ | window _ | filter _ _ | aggregate _ => exact direct _ derived member

/-- The grain of an aligned select lists forms of its outputs. -/
theorem mem_variants_of_mem_statement {c x : Concept} {multi : MultiSelect} {s : Select}
    (derived : c.lineage = some (.multiSelect multi)) (branch : s ∈ multi.selects)
    (member : x ∈ s.grain.components) : x ∈ c.variants := by
  obtain ⟨item, chosen, rfl⟩ := Select.exists_of_mem_grain member
  exact mem_variants_of_mem_inner (output_mem_inner derived branch chosen)
    (withDefaultGrain_mem_variants _)

theorem exists_of_mem_aligned {c v : Concept} (member : v ∈ c.aligned) :
    ∃ multi s item, c.lineage = some (.multiSelect multi) ∧ s ∈ multi.selects ∧
      item ∈ s.selection ∧ v = item.output.regrain s.grain := by
  unfold aligned at member
  split at member
  · next multi derived =>
    obtain ⟨s, branch, listed⟩ := List.mem_flatMap.mp member
    obtain ⟨item, chosen, rfl⟩ := List.mem_map.mp listed
    exact ⟨multi, s, item, derived, branch, chosen, rfl⟩
  · simp at member

/-- A form of a concept is a form of the concept itself at some grain, or the form of an output that
it is aligned from, or a form of a concept inside it. -/
theorem mem_variants_cases {c v : Concept} (member : v ∈ c.variants) :
    (v = c ∨ ∃ g, v = c.withGrain g ∧ (g = c.defaultGrain ∨ g = ∅)) ∨
      (∃ multi s item, c.lineage = some (.multiSelect multi) ∧ s ∈ multi.selects ∧
        item ∈ s.selection ∧ v = item.output.regrain s.grain) ∨
      ∃ x ∈ c.inner, v ∈ x.variants := by
  rw [variants_eq] at member
  rcases List.mem_append.mp member with own | inside
  · rcases List.mem_append.mp own with own | listed
    · simp only [List.mem_cons, List.not_mem_nil, or_false] at own
      rcases own with rfl | rfl | rfl
      · exact .inl (.inl rfl)
      · exact .inl (.inr ⟨_, rfl, .inl rfl⟩)
      · exact .inl (.inr ⟨_, rfl, .inr rfl⟩)
    · exact .inr (.inl (exists_of_mem_aligned listed))
  · exact .inr (.inr (List.mem_flatMap.mp inside))

/-- No step leads out of the forms of a concept. -/
theorem closed_variants (c : Concept) : Closed (· ∈ c.variants) := by
  induction c using Concept.induction with
  | step c ih =>
    have within {x v : Concept} (inside : x ∈ c.inner) : v ∈ x.variants → v ∈ c.variants :=
      mem_variants_of_mem_inner inside
    -- the form of an output is not a form of the output alone, as it is at the grain of its select
    constructor
    case reads =>
      intro v x known read
      rcases mem_variants_cases known with (rfl | ⟨g, rfl, -⟩) | aligned | ⟨y, inside, known⟩
      · exact mem_variants_of_mem_reads read
      · exact mem_variants_of_mem_reads (c := c) read
      · obtain ⟨multi, s, item, derived, branch, chosen, rfl⟩ := aligned
        have inside := output_mem_inner derived branch chosen
        rw [reads_regrain] at read
        exact within inside ((ih _ inside).reads (mem_variants_self _) read)
      · exact within inside ((ih y inside).reads known read)
    case component =>
      intro v x known listed
      rcases mem_variants_cases known with
        (rfl | ⟨g, rfl, rfl | rfl⟩) | aligned | ⟨y, inside, known⟩
      · exact within (mem_inner_of_mem_grain listed) (mem_variants_self x)
      · exact (graded_mem_variants c).1 x listed
      · exact absurd listed List.not_mem_nil
      · obtain ⟨multi, s, item, derived, branch, chosen, rfl⟩ := aligned
        have inside := output_mem_inner derived branch chosen
        rcases regrain_eq s.grain item.output with same | same <;> rw [same] at listed
        · exact within inside ((ih _ inside).component (mem_variants_self _) listed)
        · exact mem_variants_of_mem_statement derived branch listed
      · exact within inside ((ih y inside).component known listed)
    case atDefault =>
      intro v known
      rcases mem_variants_cases known with (rfl | ⟨g, rfl, -⟩) | aligned | ⟨y, inside, inner⟩
      · exact withDefaultGrain_mem_variants v
      · rcases withDefaultGrain_withGrain c g with same | same <;> rw [same]
        · exact withDefaultGrain_mem_variants c
        · exact known
      · obtain ⟨multi, s, item, derived, branch, chosen, rfl⟩ := aligned
        have inside := output_mem_inner derived branch chosen
        have atDefault := within inside (withDefaultGrain_mem_variants item.output)
        rcases regrain_eq s.grain item.output with same | same <;> rw [same] at known ⊢
        · exact atDefault
        · rcases withDefaultGrain_withGrain item.output s.grain with same | same <;> rw [same]
          · exact atDefault
          · exact known
      · exact within inside ((ih y inside).atDefault inner)
    case output =>
      intro v x multi s known derived branch output
      rcases mem_variants_cases known with (rfl | ⟨g, rfl, -⟩) | aligned | ⟨y, inside, known⟩
      · exact mem_variants_of_mem_aligned (mem_aligned_of_mem_outputs derived branch output)
      · exact mem_variants_of_mem_aligned
          (mem_aligned_of_mem_outputs (c := c) derived branch output)
      · obtain ⟨outer, t, item, above, chosenBranch, chosen, rfl⟩ := aligned
        have inside := output_mem_inner above chosenBranch chosen
        rw [lineage_regrain] at derived
        exact within inside ((ih _ inside).output (mem_variants_self _) derived branch output)
      · exact within inside ((ih y inside).output known derived branch output)

theorem exists_withGrain (c : Concept) : ∃ g, c = c.withGrain g := ⟨c.grain, by cases c; rfl⟩

/-- A form of a concept differs from a concept inside it by its grain at most. -/
theorem exists_within_of_mem_variants (c : Concept) :
    ∀ v ∈ c.variants, ∃ x ∈ c.within, ∃ g, v = x.withGrain g := by
  induction c using Concept.induction with
  | step c ih =>
    intro v member
    have self : c ∈ c.within := by rw [within_eq]; exact List.mem_cons_self
    have inside {x y : Concept} (inner : x ∈ c.inner) (held : y ∈ x.within) : y ∈ c.within := by
      rw [within_eq]
      exact List.mem_cons_of_mem _ (List.mem_flatMap.mpr ⟨x, inner, held⟩)
    rcases mem_variants_cases member with (rfl | ⟨g, rfl, -⟩) | aligned | ⟨x, inner, held⟩
    · exact ⟨v, self, exists_withGrain v⟩
    · exact ⟨c, self, g, rfl⟩
    · obtain ⟨multi, s, item, derived, branch, chosen, rfl⟩ := aligned
      have inner := output_mem_inner derived branch chosen
      refine ⟨item.output, inside inner (by rw [within_eq]; exact List.mem_cons_self), ?_⟩
      rcases regrain_eq s.grain item.output with same | same <;> rw [same]
      · exact exists_withGrain _
      · exact ⟨_, rfl⟩
    · obtain ⟨y, whole, g, rfl⟩ := ih x inner v held
      exact ⟨y, inside inner whole, g, rfl⟩

end Concept

end SemanticQuery
