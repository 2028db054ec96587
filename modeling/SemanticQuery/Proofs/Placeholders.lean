import Mathlib.Logic.Relation
import SemanticQuery.Concept.Binding
import SemanticQuery.Proofs.Outcome
import SemanticQuery.Proofs.Variants

/-!
Placeholders within a concept, and what becomes of them when the concept is bound. Binding puts
declarations in the place of all placeholders that can be reached, and leaves everything else in its
form. Where none was left to be reached, grains are free of placeholders afterwards as well.
-/

namespace SemanticQuery

/-- Every concept that is written in a derivation, however often. -/
def Lineage.operands : Lineage → List Concept
  | .filter content condition => content :: condition.reads
  | .multiSelect _ => []
  | lineage => lineage.reads

namespace Concept

/-- The concepts of which a concept is made. A placeholder is replaced as a whole, so nothing in it
counts. -/
def mentions (c : Concept) : List Concept :=
  if c.isPlaceholder then [] else c.keys ++ (c.lineage.map Lineage.operands).getD []

/-- What is reached from a concept by keys and derivations. -/
def Reaches : Concept → Concept → Prop := Relation.ReflTransGen fun c x => x ∈ c.mentions

/-- A concept from which no aligned selects are reached. -/
def Unaligned (c : Concept) : Prop := ∀ x, c.Reaches x → x.derivation ≠ .multiSelect

/-- No placeholder is seen in the selects that a concept is aligned from, which binding leaves as
they are. -/
def Sealed (c : Concept) : Prop :=
  c.derivation = .multiSelect → ∀ x ∈ c.reads, x.hasPlaceholders = false

theorem Reaches.refl (c : Concept) : c.Reaches c := Relation.ReflTransGen.refl

theorem Reaches.of_mem {c x y : Concept} (member : x ∈ c.mentions) (reaches : x.Reaches y) :
    c.Reaches y :=
  Relation.ReflTransGen.head member reaches

theorem reaches_of_isPlaceholder {p x : Concept} (missing : p.isPlaceholder = true)
    (reaches : p.Reaches x) : x = p := by
  rcases Relation.ReflTransGen.cases_head reaches with same | ⟨y, member, _⟩
  · exact same.symm
  · rw [mentions, if_pos missing] at member
    cases member

theorem derivation_eq_filter {c : Concept} :
    c.derivation = .filter ↔ ∃ content condition, c.lineage = some (.filter content condition) := by
  rw [derivation]
  rcases c.lineage with _ | ⟨f⟩ | _ | _ | _ | _
  · dsimp only
    split <;> simp
  · dsimp only
    split
    · simp
    · split <;> simp
  all_goals simp

theorem derivation_eq_multiSelect {c : Concept} :
    c.derivation = .multiSelect ↔ ∃ multi, c.lineage = some (.multiSelect multi) := by
  rw [derivation]
  rcases c.lineage with _ | ⟨f⟩ | _ | _ | _ | _
  · dsimp only
    split <;> simp
  · dsimp only
    split
    · simp
    · split <;> simp
  all_goals simp

theorem mentions_eq {c : Concept} (present : c.isPlaceholder = false) :
    c.mentions = c.keys ++ (c.lineage.map Lineage.operands).getD [] := by
  rw [mentions, if_neg (Bool.eq_false_iff.mp present)]

/-- What a derivation without aligned selects reads is written in it. -/
theorem mem_mentions_of_mem_reads {c x : Concept} (present : c.isPlaceholder = false)
    (plain : c.derivation ≠ .multiSelect) (member : x ∈ c.reads) : x ∈ c.mentions := by
  rw [mentions_eq present]
  refine List.mem_append_right _ ?_
  unfold reads at member
  cases derived : c.lineage with
  | none => simp [derived] at member
  | some lineage =>
    rw [derived] at member
    cases lineage with
    | filter content condition =>
      rcases List.mem_cons.mp member with rfl | member
      · exact List.mem_cons_self
      · exact List.mem_cons_of_mem _ (mem_of_mem_unique member)
    | multiSelect multi => exact absurd (derivation_eq_multiSelect.mpr ⟨multi, derived⟩) plain
    | call _ | window _ | aggregate _ => exact member

/-- What is written in a derivation without filters and aligned selects is read. -/
theorem mem_reads_of_mem_mentions {c x : Concept} (unfiltered : c.derivation ≠ .filter)
    (member : x ∈ c.mentions) : x ∈ c.keys ∨ x ∈ c.reads := by
  unfold mentions at member
  split at member
  · cases member
  · refine (List.mem_append.mp member).imp_right fun operand => ?_
    unfold reads
    cases derived : c.lineage with
    | none => simp [derived] at operand
    | some lineage =>
      rw [derived] at operand
      cases lineage with
      | filter content condition =>
        exact absurd (derivation_eq_filter.mpr ⟨content, condition, derived⟩) unfiltered
      | multiSelect multi => cases operand
      | call _ | window _ | aggregate _ => exact operand

section Seen

/-!
The placeholders that are seen in a concept, of which `hasPlaceholders` tells whether there are any.
-/

theorem withGrain_grain (c : Concept) : c.withGrain c.grain = c := by
  cases c
  rfl

theorem uniqueOn_paired (f : Concept → Parts β → β) (cs : List Concept) :
    Names.uniqueOn (·.1.address) (cs.map (·.paired f)) = (unique cs).map (·.paired f) :=
  Names.uniqueOn_map (fun part : Concept × β => part.1.address) _ cs

theorem outputs_paired {f : Concept → Parts β → β}
    (blind : ∀ x g, Concept.fold f (withGrain x g) = x.fold f) (s : Select) :
    LineageParts.outputs (s.selection.map (·.paired f)) = s.outputs.map (·.paired f) := by
  have grain : SelectItem.statementGrain ((s.selection.map (·.paired f)).map (·.1)) = s.grain := by
    rw [List.map_map]
    exact congrArg _ (List.map_id _)
  unfold LineageParts.outputs
  dsimp only
  rw [grain, List.filter_map, List.map_map, Select.outputs, ← uniqueOn_paired, List.map_map]
  refine congrArg _ (List.map_congr_left fun item _ => ?_)
  change (item.output.regrain s.grain, item.output.fold f) = (item.output.regrain s.grain).paired f
  rcases regrain_eq s.grain item.output with same | same
  · rw [same, paired]
  · rw [same, paired, blind]

/-- A fold for which the grain of a concept makes no difference sees all that a derivation reads. -/
theorem allReads_folded {f : Concept → Parts β → β}
    (blind : ∀ x g, Concept.fold f (withGrain x g) = x.fold f) (c : Concept) :
    ((c.folded f).lineage ()).allReads = c.reads.map (·.paired f) := by
  unfold folded reads
  cases c.lineage with
  | none => rfl
  | some lineage =>
    cases lineage with
    | multiSelect multi =>
      change Names.uniqueOn (fun part : Concept × β => part.1.address)
        ((multi.selects.map fun s => s.selection.map (·.paired f)).flatMap LineageParts.outputs) =
          (unique (multi.selects.flatMap Select.outputs)).map (·.paired f)
      rw [List.flatMap_map, ← uniqueOn_paired, List.map_flatMap]
      simp only [outputs_paired blind]
    | call _ | window _ | filter _ _ | aggregate _ => exact List.append_nil _

theorem hasPlaceholdersInside_withGrain (c : Concept) (g : Grain) :
    (c.withGrain g).hasPlaceholdersInside = c.hasPlaceholdersInside := by
  rw [hasPlaceholdersInside, hasPlaceholdersInside, fold_eq, fold_eq]
  rfl

theorem hasPlaceholders_iff {c : Concept} :
    c.hasPlaceholders = true ↔ c.grain.hasPlaceholders = true ∨ c.isPlaceholder = true ∨
      ∃ x ∈ c.keys ++ c.reads, x.hasPlaceholders = true := by
  have inside : c.hasPlaceholdersInside = true ↔ c.isPlaceholder = true ∨
      ∃ x ∈ c.keys ++ c.reads, x.hasPlaceholders = true := by
    rw [hasPlaceholdersInside, fold_eq]
    dsimp only
    rw [allReads_folded hasPlaceholdersInside_withGrain, folded, List.any_map, List.any_map]
    change (c.isPlaceholder ||
      c.keys.any (fun x => x.hasPlaceholdersInside || x.grain.hasPlaceholders) ||
      c.reads.any fun x => x.hasPlaceholdersInside || x.grain.hasPlaceholders) = true ↔ _
    simp only [Bool.or_eq_true, List.any_eq_true, List.mem_append, or_and_right, exists_or,
      hasPlaceholders, or_comm (b := (hasPlaceholdersInside _ = true)), or_assoc]
  rw [hasPlaceholders, Bool.or_eq_true, inside]

theorem hasPlaceholders_eq_false {c : Concept} :
    c.hasPlaceholders = false ↔ c.grain.hasPlaceholders = false ∧ c.isPlaceholder = false ∧
      ∀ x ∈ c.keys ++ c.reads, x.hasPlaceholders = false := by
  rw [← Bool.not_eq_true, hasPlaceholders_iff]
  simp only [not_or, not_exists, not_and, Bool.not_eq_true]

/-- A placeholder that is seen in something reached without filters is seen. -/
theorem hasPlaceholders_of_reaches {c x : Concept}
    (unfiltered : ∀ y, c.Reaches y → y.derivation ≠ .filter) (reaches : c.Reaches x)
    (seen : x.hasPlaceholders = true) : c.hasPlaceholders = true := by
  induction reaches using Relation.ReflTransGen.head_induction_on with
  | refl => exact seen
  | @head c y member _ ih =>
    have inside := ih fun z reaches => unfiltered z (.of_mem member reaches)
    have read := mem_reads_of_mem_mentions (unfiltered c (.refl c)) member
    exact hasPlaceholders_iff.mpr (.inr (.inr ⟨y, List.mem_append.mpr read, inside⟩))

theorem mem_reads_of_mem_groupBy {f : Concept → Parts β → β} {c : Concept} {part : Concept × β}
    (member : part ∈ ((c.folded f).lineage ()).groupBy) : part.1 ∈ c.reads := by
  unfold folded at member
  unfold reads
  cases derived : c.lineage with
  | none => simp [derived] at member
  | some lineage =>
    rw [derived] at member
    cases lineage with
    | aggregate aggregate =>
      obtain ⟨x, grouped, rfl⟩ := List.mem_map.mp member
      obtain ⟨call, groupBy⟩ := aggregate
      simp only [Lineage.reads, Aggregate.reads]
      exact List.mem_append_right _ grouped
    | call _ | window _ | filter _ _ | multiSelect _ => cases member

theorem mem_inner_of_mem_reads {c x : Concept} (plain : c.derivation ≠ .multiSelect)
    (member : x ∈ c.reads) : x ∈ c.inner := by
  unfold reads at member
  cases derived : c.lineage with
  | none => simp [derived] at member
  | some lineage =>
    rw [derived] at member
    refine mem_inner_of_mem_lineage derived ?_
    cases lineage with
    | multiSelect multi => exact absurd (derivation_eq_multiSelect.mpr ⟨multi, derived⟩) plain
    | call _ | window _ | filter _ _ | aggregate _ => exact member

theorem statement_paired (s : Select) :
    Graded.statement (s.selection.map (·.paired Graded.ofParts)) = s.grain := by
  have outputs : (s.selection.map (·.paired Graded.ofParts)).map
      (fun item => (item.1.output, item.2)) =
        (s.selection.map SelectItem.output).map (·.paired Graded.ofParts) := by
    rw [List.map_map, List.map_map]
    rfl
  unfold Graded.statement
  dsimp only
  rw [outputs, uniqueOn_paired, List.filter_map, List.map_map]
  exact congrArg Graded.grain (Graded.settle_map_withDefaultGrain _)

theorem map_fst_gradedOutputs (s : Select) :
    (Graded.outputs (s.selection.map (·.paired Graded.ofParts))).map (·.1) = s.outputs := by
  unfold Graded.outputs
  dsimp only
  rw [← Names.uniqueOn_map address, List.map_map, List.filter_map, List.map_map, statement_paired]
  refine congrArg _ (List.map_congr_left fun item _ => ?_)
  dsimp only [Function.comp]
  split
  · split <;> rfl
  · split <;> rfl
  · rfl

/-- The concepts whose default grains a derivation takes are those that it reads. -/
theorem map_fst_gradedReads (c : Concept) :
    (Graded.reads ((c.folded Graded.ofParts).lineage ())).map (·.1) = c.reads := by
  have plain (cs : List Concept) :
      (cs.map (Concept.paired Graded.ofParts) ++ []).map Prod.fst = cs := by
    rw [List.append_nil, List.map_map]
    exact List.map_id _
  unfold folded reads
  cases c.lineage with
  | none => rfl
  | some lineage =>
    cases lineage with
    | multiSelect multi =>
      change (Names.uniqueOn (fun part : Concept × Graded => part.1.address)
        ((multi.selects.map fun s => s.selection.map (·.paired Graded.ofParts)).flatMap
          Graded.outputs)).map (·.1) = unique (multi.selects.flatMap Select.outputs)
      rw [← Names.uniqueOn_map address, List.flatMap_map, List.map_flatMap]
      simp only [map_fst_gradedOutputs]
      rfl
    | call _ | window _ | filter _ _ | aggregate _ => exact plain _

theorem graded_withGrain {c : Concept} (g : Grain)
    (own : c.purpose ≠ .constant ∧ c.purpose ≠ .auto) : (c.withGrain g).graded = c.graded := by
  rw [graded_eq, graded_eq, Graded.ofParts, Graded.ofParts, purpose_withGrain]
  cases purpose : c.purpose with
  | key | property | metric => rfl
  | constant => exact absurd purpose own.1
  | auto => exact absurd purpose own.2

theorem graded_of_grain {c : Concept} (given : c.purpose = .constant ∨ c.purpose = .auto) :
    c.graded = ⟨c.grain, c.grain.components.map withDefaultGrain⟩ := by
  rw [graded_eq, Graded.ofParts]
  rcases given with purpose | purpose
  all_goals
    rw [purpose]
    dsimp only
    rw [folded, List.map_map]
    rfl

/-- An output of an aligned select comes with its own default grain. -/
theorem snd_of_mem_gradedOutputs {s : Select} {part : Concept × Graded}
    (member : part ∈ Graded.outputs (s.selection.map (·.paired Graded.ofParts))) :
    part.2 = part.1.graded := by
  obtain ⟨_, kept, rfl⟩ := List.mem_map.mp (Names.mem_of_mem_uniqueOn member)
  obtain ⟨item, _, rfl⟩ := List.mem_map.mp (List.mem_filter.mp kept).1
  rw [statement_paired]
  by_cases aggregated : (item.output.derivation == .aggregate && !item.output.hasGroupBy) = true
  · have regrained : item.output.regrain s.grain = item.output.withGrain s.grain :=
      if_pos aggregated
    simp only [SelectItem.paired, regrained, purpose_withGrain, if_pos aggregated]
    have given (purpose : item.output.purpose = .constant ∨ item.output.purpose = .auto) :
        (⟨s.grain, s.grain.components⟩ : Graded) = (item.output.withGrain s.grain).graded := by
      rw [graded_of_grain (c := item.output.withGrain s.grain) purpose]
      refine congrArg (Graded.mk s.grain) (Eq.symm ?_)
      exact map_withDefaultGrain fun c listed => Grain.withDefaultGrain_of_mem_of listed
    cases purpose : item.output.purpose with
    | constant => exact given (.inl purpose)
    | auto => exact given (.inr purpose)
    | key | property | metric => exact (graded_withGrain s.grain (by simp [purpose])).symm
  · have kept : item.output.regrain s.grain = item.output := if_neg aggregated
    simp only [SelectItem.paired, kept, if_neg aggregated]
    cases item.output.purpose with
    | constant | auto | key | property | metric => rfl

/-- A derivation takes the default grains of what it reads. -/
theorem gradedReads_folded (c : Concept) :
    Graded.reads ((c.folded Graded.ofParts).lineage ()) =
      c.reads.map fun read => (read, read.graded) := by
  have own : ∀ part ∈ Graded.reads ((c.folded Graded.ofParts).lineage ()),
      part.2 = part.1.graded := by
    intro part member
    cases derived : c.lineage with
    | none =>
      simp only [folded, derived] at member
      cases member
    | some lineage =>
      simp only [folded, derived, Option.map_some, Option.getD_some] at member
      rcases List.mem_append.mp member with direct | output
      · obtain ⟨y, _, rfl⟩ := Lineage.exists_of_mem_folded_reads direct
        rfl
      · obtain ⟨items, branch, output⟩ := List.mem_flatMap.mp (Names.mem_of_mem_uniqueOn output)
        obtain ⟨multi, rfl, s, _, rfl⟩ := Lineage.exists_of_mem_folded_branches branch
        exact snd_of_mem_gradedOutputs output
  rw [← map_fst_gradedReads, List.map_map]
  refine Eq.trans (List.map_id _).symm (List.map_congr_left fun part member => ?_)
  exact Prod.ext rfl (own part member)

/-- What a derivation reads are concepts inside it, aggregates in aligned selects at another grain. -/
theorem exists_of_mem_reads {c r : Concept} (read : r ∈ c.reads) :
    ∃ x ∈ c.inner, ∃ g, r = x.withGrain g := by
  by_cases aligned : c.derivation = .multiSelect
  · obtain ⟨multi, derived⟩ := derivation_eq_multiSelect.mp aligned
    rw [reads, derived] at read
    obtain ⟨s, listed, output⟩ := List.mem_flatMap.mp (mem_of_mem_unique read)
    obtain ⟨item, chosen, rfl⟩ := Select.exists_of_mem_outputs output
    refine ⟨item.output, output_mem_inner derived listed chosen, ?_⟩
    rcases regrain_eq s.grain item.output with same | same
    · exact ⟨item.output.grain, by rw [same, withGrain_grain]⟩
    · exact ⟨s.grain, same⟩
  · exact ⟨r, mem_inner_of_mem_reads aligned read, r.grain, r.withGrain_grain.symm⟩

theorem isPlaceholder_of_mem_settle {cs : List Concept} (all : ∀ x ∈ cs, x.isPlaceholder = false) :
    (∀ x ∈ (Graded.settle cs).grain.components, x.isPlaceholder = false) ∧
      ∀ x ∈ (Graded.settle cs).settled, x.isPlaceholder = false :=
  ⟨fun x member => all x (Graded.mem_of_mem_settle member),
    fun x member => all x (Graded.mem_of_mem_settle member)⟩

theorem isPlaceholder_of_mem_grain {c : Concept} (bound : c.hasPlaceholders = false) :
    ∀ x ∈ c.grain.components, x.isPlaceholder = false := by
  simpa [Grain.hasPlaceholders] using (hasPlaceholders_eq_false.mp bound).1

/-- The default grain of a concept without placeholders has none, nor do the components that the
concept brings into other grains. Aligned selects evaluate what they read at other grains, so this
is stated for a concept at any grain. -/
theorem isPlaceholder_of_mem_graded {c : Concept} {g : Grain}
    (bound : (c.withGrain g).hasPlaceholders = false) :
    (∀ x ∈ (c.withGrain g).graded.grain.components, x.isPlaceholder = false) ∧
      ∀ x ∈ (c.withGrain g).graded.settled, x.isPlaceholder = false := by
  induction c using Concept.induction generalizing g with
  | step c ih =>
    have components := isPlaceholder_of_mem_grain bound
    obtain ⟨_, present, parts⟩ := hasPlaceholders_eq_false.mp bound
    have others : ∀ x ∈ c.keys ++ c.reads, x.isPlaceholder = false := fun x member =>
      (hasPlaceholders_eq_false.mp (parts x member)).2.1
    rw [graded_eq, Graded.ofParts, purpose_withGrain]
    cases purpose : c.purpose with
    | key =>
      dsimp only
      refine ⟨fun x member => ?_, fun x member => ?_⟩
      · rw [List.mem_singleton.mp member]
        exact present
      · rw [List.mem_singleton.mp member]
        exact present
    | property =>
      dsimp only
      split
      · refine isPlaceholder_of_mem_settle fun x member => ?_
        rw [gradedReads_folded, List.flatMap_map] at member
        obtain ⟨r, read, brought⟩ := List.mem_flatMap.mp member
        have clean := parts r (List.mem_append_right c.keys read)
        obtain ⟨y, inside, h, rfl⟩ := exists_of_mem_reads (c := c) read
        exact (ih y inside clean).2 x brought
      · refine isPlaceholder_of_mem_settle fun x member => ?_
        obtain ⟨part, key, rfl⟩ := List.mem_map.mp member
        obtain ⟨k, listed, rfl⟩ := List.mem_map.mp key
        exact others k (List.mem_append_left _ listed)
    | metric =>
      dsimp only
      split
      · refine isPlaceholder_of_mem_settle fun x member => ?_
        obtain ⟨part, grouped, rfl⟩ := List.mem_map.mp member
        exact others part.1 (List.mem_append_right _ (mem_reads_of_mem_groupBy grouped))
      · exact ⟨by simp [EmptyCollection.emptyCollection, Grain.empty], by simp⟩
    | constant | auto =>
      refine ⟨components, fun x member => ?_⟩
      obtain ⟨part, listed, rfl⟩ := List.mem_map.mp member
      obtain ⟨y, component, rfl⟩ := List.mem_map.mp listed
      exact components y component

end Seen

end Concept

namespace PlanError

/-- Whether arguments were found not to fit the signature of an operator. -/
def IsInvalidCall : PlanError → Prop
  | argumentCount .. | invalidArgumentType .. => True
  | _ => False

end PlanError

section Rebinding

/-!
Binding, with what it does to the concepts that are written in each part of a derivation.
-/

variable (resolve : Resolver)

/-- Concepts, and what they are bound to. -/
def Rebinds (cs bound : List Concept) : Prop := cs.map (·.rebind resolve) = bound.map .ok

/-- Why concepts cannot be bound: a call does not fit its signature, or a placeholder that they
reach is not found. -/
def Blames (cs : List Concept) (e : PlanError) : Prop :=
  e.IsInvalidCall ∨
    ∃ c ∈ cs, ∃ p, c.Reaches p ∧ p.isPlaceholder = true ∧ resolve p.address = .error e

/-- A computation that binds the concepts that are written in something. -/
def Carries (cs : List Concept) (written : α → List Concept) (x : Except PlanError α) : Prop :=
  Settles x (fun a => Rebinds resolve cs (written a)) (Blames resolve cs)

variable {resolve}

theorem Blames.mono {cs ds : List Concept} {e : PlanError} (blames : Blames resolve cs e)
    (subset : ∀ c ∈ cs, ∀ p, c.Reaches p → ∃ d ∈ ds, d.Reaches p) : Blames resolve ds e := by
  refine blames.imp_right ?_
  rintro ⟨c, member, p, reaches, fails⟩
  obtain ⟨d, listed, reaches⟩ := subset c member p reaches
  exact ⟨d, listed, p, reaches, fails⟩

theorem Blames.of_subset {cs ds : List Concept} {e : PlanError} (blames : Blames resolve cs e)
    (subset : cs ⊆ ds) : Blames resolve ds e :=
  blames.mono fun c member _ reaches => ⟨c, subset member, reaches⟩

/-- The concepts of a part are to blame among all. -/
theorem Carries.within {cs ds : List Concept} {written : α → List Concept} {x : Except PlanError α}
    (carries : Carries resolve cs written x) (subset : cs ⊆ ds) :
    Settles x (fun a => Rebinds resolve cs (written a)) (Blames resolve ds) :=
  Settles.weaken carries (fun _ bound => bound) fun _ blames => blames.of_subset subset

theorem Carries.nil {written : α → List Concept} {a : α} (none : written a = []) :
    Carries resolve [] written (pure a) := by
  change Rebinds resolve [] (written a)
  rw [none]
  rfl

theorem Carries.map {cs : List Concept} {written : α → List Concept} {whole : β → List Concept}
    {x : Except PlanError α} {f : α → β} (first : Carries resolve cs written x)
    (same : ∀ a, whole (f a) = written a) :
    Carries resolve cs whole (x >>= fun a => pure (f a)) := by
  refine Settles.bind first fun a bound => ?_
  change Rebinds resolve cs (whole (f a))
  rw [same]
  exact bound

theorem Carries.both {cs ds : List Concept} {left : α → List Concept} {right : β → List Concept}
    {whole : γ → List Concept} {x : Except PlanError α} {y : Except PlanError β} {f : α → β → γ}
    (first : Carries resolve cs left x) (second : Carries resolve ds right y)
    (joined : ∀ a b, whole (f a b) = left a ++ right b) :
    Carries resolve (cs ++ ds) whole (x >>= fun a => y >>= fun b => pure (f a b)) := by
  refine (first.within (List.subset_append_left cs ds)).bind fun a bound => ?_
  refine (second.within (List.subset_append_right cs ds)).bind fun b also => ?_
  change Rebinds resolve (cs ++ ds) (whole (f a b))
  rw [joined, Rebinds, List.map_append, List.map_append, bound, also]

theorem Call.settles_of (operator : Operator) (arguments : List Expr) :
    Settles (Call.of operator arguments) (·.arguments = arguments) (·.IsInvalidCall) := by
  unfold Call.of
  dsimp only
  split
  · trivial
  · split
    · next e first =>
      obtain ⟨argument, _, misfit⟩ := List.mem_filterMap.mp (List.mem_of_mem_head? first)
      unfold misfit? at misfit
      split at misfit
      · cases misfit
      · cases misfit
      · cases misfit
      · split at misfit
        · cases misfit
        · cases misfit
          trivial
    · rfl

theorem Call.settles_rebuild (operator : Operator) (old new : List Expr) (datatype : DataType) :
    Settles (Call.rebuild operator old new datatype) (·.arguments = new) (·.IsInvalidCall) := by
  unfold Call.rebuild
  refine (settles_of operator new).bind fun rebuilt same => ?_
  split
  · exact same
  · refine (settles_of operator old).bind fun plain _ => ?_
    change (ite _ _ _ : Call).arguments = new
    split
    · exact same
    · exact same

theorem Call.reads_eq (call : Call) : call.reads = Expr.readsAll call.arguments := by
  cases call
  rw [Call.reads]

theorem Concept.carries_of_settles {c : Concept}
    (settles : Settles (c.rebind resolve) (fun _ => True) (Blames resolve [c])) :
    Carries resolve [c] (fun bound => [bound]) (c.rebind resolve) := by
  cases done : c.rebind resolve with
  | ok bound =>
    change [c.rebind resolve] = [.ok bound]
    rw [done]
  | error e => exact settles.error done

mutual

theorem Concept.carries_rebind (c : Concept) :
    Carries resolve [c] (fun bound => [bound]) (c.rebind resolve) := by
  obtain ⟨name, datatype, purpose, metadata, lineage, ns, keys, grain⟩ := c
  refine Concept.carries_of_settles ?_
  rw [Concept.rebind]
  split
  · next missing =>
    cases found : resolve _ with
    | ok bound => trivial
    | error e => exact .inr ⟨_, List.mem_singleton.mpr rfl, _, .refl _, missing, found⟩
  · next present =>
    have mentions := Concept.mentions_eq (Bool.eq_false_iff.mpr present)
    refine Settles.bind ((Lineage.carries_rebindOption lineage).weaken (fun _ _ => trivial)
      fun e blames => blames.mono fun x member p reaches => ?_) fun _ _ => ?_
    · refine ⟨_, List.mem_singleton.mpr rfl, .of_mem ?_ reaches⟩
      rw [mentions]
      exact List.mem_append_right _ member
    refine Settles.bind ((Concept.carries_rebindAll keys).weaken (fun _ _ => trivial)
      fun e blames => blames.mono fun x member p reaches => ?_) fun _ _ => trivial
    refine ⟨_, List.mem_singleton.mpr rfl, .of_mem ?_ reaches⟩
    rw [mentions]
    exact List.mem_append_left _ member

theorem Concept.carries_rebindAll (cs : List Concept) :
    Carries resolve cs id (Concept.rebindAll resolve cs) := by
  cases cs with
  | nil =>
    rw [Concept.rebindAll]
    exact .nil rfl
  | cons c cs =>
    rw [Concept.rebindAll]
    exact (Concept.carries_rebind c).both (Concept.carries_rebindAll cs) fun _ _ => rfl

theorem Lineage.carries_rebindOption (lineage : Option Lineage) :
    Carries resolve ((lineage.map Lineage.operands).getD [])
      (fun bound => (bound.map Lineage.operands).getD [])
      (Lineage.rebindOption resolve lineage) := by
  cases lineage with
  | none =>
    rw [Lineage.rebindOption]
    exact .nil rfl
  | some lineage =>
    rw [Lineage.rebindOption]
    exact (Lineage.carries_rebind lineage).map fun _ => rfl

theorem Lineage.carries_rebind (lineage : Lineage) :
    Carries resolve lineage.operands Lineage.operands (lineage.rebind resolve) := by
  cases lineage with
  | call call =>
    rw [Lineage.rebind]
    exact (Call.carries_rebind call).map fun _ => rfl
  | window window =>
    rw [Lineage.rebind]
    exact (Window.carries_rebind window).map fun _ => rfl
  | filter content condition =>
    rw [Lineage.rebind]
    exact (Concept.carries_rebind content).both (Condition.carries_rebind condition) fun _ _ => rfl
  | aggregate aggregate =>
    rw [Lineage.rebind]
    exact (Aggregate.carries_rebind aggregate).map fun _ => rfl
  | multiSelect multi =>
    rw [Lineage.rebind]
    exact .nil rfl

theorem Call.carries_rebind (call : Call) :
    Carries resolve call.reads Call.reads (call.rebind resolve) := by
  obtain ⟨operator, arguments, datatype, purpose⟩ := call
  rw [Call.rebind, Call.reads]
  refine Settles.bind (Expr.carries_rebindAll arguments) fun bound rebinds => ?_
  refine (Call.settles_rebuild operator arguments bound datatype).weaken (fun made same => ?_)
    fun e invalid => .inl invalid
  rw [Call.reads_eq, same]
  exact rebinds

theorem Aggregate.carries_rebind (aggregate : Aggregate) :
    Carries resolve aggregate.reads Aggregate.reads (aggregate.rebind resolve) := by
  obtain ⟨call, groupBy⟩ := aggregate
  rw [Aggregate.rebind, Aggregate.reads]
  exact (Call.carries_rebind call).both (Concept.carries_rebindAll groupBy) fun _ _ => by
    rw [Aggregate.reads]
    rfl

theorem Expr.carries_rebind (e : Expr) :
    Carries resolve e.reads Expr.reads (e.rebind resolve) := by
  cases e with
  | concept c =>
    rw [Expr.rebind, Expr.reads]
    exact (Concept.carries_rebind c).map fun _ => by rw [Expr.reads]
  | literal l =>
    rw [Expr.rebind, Expr.reads]
    exact .nil (by rw [Expr.reads])
  | call call =>
    rw [Expr.rebind, Expr.reads]
    exact (Call.carries_rebind call).map fun _ => by rw [Expr.reads]
  | aggregate aggregate =>
    rw [Expr.rebind, Expr.reads]
    exact (Aggregate.carries_rebind aggregate).map fun _ => by rw [Expr.reads]
  | case branches otherwise =>
    rw [Expr.rebind, Expr.reads]
    exact (Branch.carries_rebindAll branches).both (Expr.carries_rebindOption otherwise)
      fun _ _ => by rw [Expr.reads]
  | datatype t =>
    rw [Expr.rebind, Expr.reads]
    exact .nil (by rw [Expr.reads])
  | list items =>
    rw [Expr.rebind, Expr.reads]
    exact .nil (by rw [Expr.reads])

theorem Expr.carries_rebindAll (es : List Expr) :
    Carries resolve (Expr.readsAll es) Expr.readsAll (Expr.rebindAll resolve es) := by
  cases es with
  | nil =>
    rw [Expr.rebindAll, Expr.readsAll]
    exact .nil (by rw [Expr.readsAll])
  | cons e es =>
    rw [Expr.rebindAll, Expr.readsAll]
    exact (Expr.carries_rebind e).both (Expr.carries_rebindAll es) fun _ _ => by rw [Expr.readsAll]

theorem Expr.carries_rebindOption (e : Option Expr) :
    Carries resolve (Expr.readsOption e) Expr.readsOption (Expr.rebindOption resolve e) := by
  cases e with
  | none =>
    rw [Expr.rebindOption, Expr.readsOption]
    exact .nil (by rw [Expr.readsOption])
  | some e =>
    rw [Expr.rebindOption, Expr.readsOption]
    exact (Expr.carries_rebind e).map fun _ => by rw [Expr.readsOption]

theorem Branch.carries_rebind (b : Branch) :
    Carries resolve b.reads Branch.reads (b.rebind resolve) := by
  obtain ⟨condition, result⟩ := b
  rw [Branch.rebind, Branch.reads]
  exact (Condition.carries_rebind condition).both (Expr.carries_rebind result) fun _ _ => by
    rw [Branch.reads]

theorem Branch.carries_rebindAll (bs : List Branch) :
    Carries resolve (Branch.readsAll bs) Branch.readsAll (Branch.rebindAll resolve bs) := by
  cases bs with
  | nil =>
    rw [Branch.rebindAll, Branch.readsAll]
    exact .nil (by rw [Branch.readsAll])
  | cons b bs =>
    rw [Branch.rebindAll, Branch.readsAll]
    exact (Branch.carries_rebind b).both (Branch.carries_rebindAll bs) fun _ _ => by
      rw [Branch.readsAll]

theorem Condition.carries_rebind (condition : Condition) :
    Carries resolve condition.reads Condition.reads (condition.rebind resolve) := by
  cases condition with
  | compare left right comparator =>
    rw [Condition.rebind, Condition.reads]
    exact (Expr.carries_rebind left).both (Expr.carries_rebind right) fun _ _ => by
      rw [Condition.reads]
  | combine left right connective =>
    rw [Condition.rebind, Condition.reads]
    exact (Condition.carries_rebind left).both (Condition.carries_rebind right) fun _ _ => by
      rw [Condition.reads]
  | parenthesis inner =>
    rw [Condition.rebind, Condition.reads]
    exact (Condition.carries_rebind inner).map fun _ => by rw [Condition.reads]

theorem Window.carries_rebind (window : Window) :
    Carries resolve window.reads Window.reads (window.rebind resolve) := by
  obtain ⟨kind, content, orderBy, partitions, index⟩ := window
  rw [Window.rebind]
  -- the partitions are bound last and stand before the ordering
  refine ((Concept.carries_rebind content).within (by simp [Window.reads])).bind
    fun c first => ?_
  refine ((OrderItem.carries_rebindAll orderBy).within (by simp [Window.reads])).bind
    fun items last => ?_
  refine ((Concept.carries_rebindAll partitions).within (by simp [Window.reads])).bind
    fun cs middle => ?_
  change ([content] ++ partitions ++ orderBy.map (·.concept)).map _ =
    ([c] ++ cs ++ items.map (·.concept)).map _
  rw [List.map_append, List.map_append, List.map_append, List.map_append]
  exact congrArg₂ _ (congrArg₂ _ first middle) last

theorem OrderItem.carries_rebind (item : OrderItem) :
    Carries resolve [item.concept] (fun bound => [bound.concept]) (item.rebind resolve) := by
  obtain ⟨concept, direction⟩ := item
  rw [OrderItem.rebind]
  exact (Concept.carries_rebind concept).map fun _ => rfl

theorem OrderItem.carries_rebindAll (items : List OrderItem) :
    Carries resolve (items.map (·.concept)) (·.map (·.concept))
      (OrderItem.rebindAll resolve items) := by
  cases items with
  | nil =>
    rw [OrderItem.rebindAll]
    exact .nil rfl
  | cons item items =>
    rw [OrderItem.rebindAll]
    exact (OrderItem.carries_rebind item).both (OrderItem.carries_rebindAll items) fun _ _ => rfl

end

namespace Concept

variable {c bound : Concept}

theorem rebind_present (present : c.isPlaceholder = false) (done : c.rebind resolve = .ok bound) :
    ∃ lineage keys, Lineage.rebindOption resolve c.lineage = .ok lineage ∧
      Concept.rebindAll resolve c.keys = .ok keys ∧ c.rebuild lineage keys = bound := by
  obtain ⟨name, datatype, purpose, metadata, lineage, ns, keys, grain⟩ := c
  rw [rebind, if_neg (Bool.eq_false_iff.mp present)] at done
  obtain ⟨lineage, derivation, done⟩ := bind_eq_ok.mp done
  obtain ⟨keys, owners, done⟩ := bind_eq_ok.mp done
  exact ⟨lineage, keys, derivation, owners, pure_eq_ok.mp done⟩

theorem rebind_placeholder (missing : c.isPlaceholder = true) :
    c.rebind resolve = resolve c.address := by
  cases c
  rw [rebind, if_pos missing]

theorem isSome_rebindOption {lineage bound : Option Lineage}
    (done : Lineage.rebindOption resolve lineage = .ok bound) : bound.isSome = lineage.isSome := by
  cases lineage with
  | none =>
    rw [Lineage.rebindOption] at done
    cases done
    rfl
  | some lineage =>
    rw [Lineage.rebindOption] at done
    obtain ⟨made, _, done⟩ := bind_eq_ok.mp done
    cases done
    rfl

/-- Only placeholders make way for others; a concept that is bound stays a concept. -/
theorem isPlaceholder_rebind (present : c.isPlaceholder = false)
    (done : c.rebind resolve = .ok bound) : bound.isPlaceholder = false := by
  obtain ⟨lineage, keys, derivation, _, rfl⟩ := rebind_present present done
  have derived := isSome_rebindOption derivation
  cases lineage with
  | none =>
    cases former : c.lineage with
    | none => simpa [rebuild, isPlaceholder, withGrain, former] using present
    | some _ =>
      rw [former] at derived
      cases derived
  | some lineage => simp [rebuild, isPlaceholder, withGrain]

/-- The concepts of which a concept is made are bound one by one. -/
theorem rebinds_mentions (present : c.isPlaceholder = false)
    (done : c.rebind resolve = .ok bound) : Rebinds resolve c.mentions bound.mentions := by
  rw [mentions_eq present, mentions_eq (isPlaceholder_rebind present done)]
  obtain ⟨lineage, keys, derivation, owners, rfl⟩ := rebind_present present done
  have first := (carries_rebindAll c.keys).ok owners
  have second := (Lineage.carries_rebindOption c.lineage).ok derivation
  rw [Rebinds, List.map_append, List.map_append]
  exact congrArg₂ _ first second

theorem exists_of_mem_rebinds {cs bound : List Concept} (rebinds : Rebinds resolve cs bound)
    {x : Concept} (member : x ∈ bound) : ∃ y ∈ cs, y.rebind resolve = .ok x := by
  have listed : Except.ok x ∈ cs.map (·.rebind resolve) := by
    rw [rebinds]
    exact List.mem_map_of_mem member
  exact List.mem_map.mp listed

/-- What is reached from a bound concept is reached from what a placeholder was bound to, or was
bound in its place. -/
theorem reaches_rebind {y : Concept} (reaches : bound.Reaches y)
    (done : c.rebind resolve = .ok bound) :
    (∃ p e, c.Reaches p ∧ p.isPlaceholder = true ∧ resolve p.address = .ok e ∧ e.Reaches y) ∨
      ∃ x, c.Reaches x ∧ x.isPlaceholder = false ∧ x.rebind resolve = .ok y := by
  induction reaches using Relation.ReflTransGen.head_induction_on generalizing c with
  | refl =>
    cases missing : c.isPlaceholder with
    | true =>
      rw [rebind_placeholder missing] at done
      exact .inl ⟨c, y, .refl c, missing, done, .refl y⟩
    | false => exact .inr ⟨c, .refl c, missing, done⟩
  | @head bound next member reaches ih =>
    cases missing : c.isPlaceholder with
    | true =>
      rw [rebind_placeholder missing] at done
      exact .inl ⟨c, bound, .refl c, missing, done, .of_mem member reaches⟩
    | false =>
      obtain ⟨x, part, done⟩ := exists_of_mem_rebinds (rebinds_mentions missing done) member
      rcases ih done with ⟨p, e, within, found⟩ | ⟨z, within, rebound⟩
      · exact .inl ⟨p, e, .of_mem part within, found⟩
      · exact .inr ⟨z, .of_mem part within, rebound⟩

/-- What is reached is bound along, and all that is then reached from it is reached. -/
theorem exists_of_reaches {x : Concept} (reaches : c.Reaches x)
    (done : c.rebind resolve = .ok bound) :
    ∃ y, x.rebind resolve = .ok y ∧ ∀ z, y.Reaches z → bound.Reaches z := by
  induction reaches using Relation.ReflTransGen.head_induction_on generalizing bound with
  | refl => exact ⟨bound, done, fun _ reaches => reaches⟩
  | @head c x member _ ih =>
    have present : c.isPlaceholder = false := by
      refine Bool.eq_false_iff.mpr fun placeholder => ?_
      rw [mentions, if_pos placeholder] at member
      cases member
    have step : x.rebind resolve ∈ bound.mentions.map .ok := by
      rw [← rebinds_mentions present done]
      exact List.mem_map_of_mem member
    obtain ⟨next, part, done⟩ := List.mem_map.mp step
    obtain ⟨y, rebound, within⟩ := ih done.symm
    exact ⟨y, rebound, fun z reaches => .of_mem part (within z reaches)⟩

/-- A placeholder that is reached is found, and all that its declaration reaches is then reached. -/
theorem exists_of_reaches_placeholder {p : Concept} (reaches : c.Reaches p)
    (missing : p.isPlaceholder = true) (done : c.rebind resolve = .ok bound) :
    ∃ e, resolve p.address = .ok e ∧ ∀ y, e.Reaches y → bound.Reaches y := by
  obtain ⟨e, found, within⟩ := exists_of_reaches reaches done
  rw [rebind_placeholder missing] at found
  exact ⟨e, found, within⟩

/-- Binding makes no filter and no aligned selects. -/
theorem derivation_rebind (present : c.isPlaceholder = false)
    (done : c.rebind resolve = .ok bound) :
    (bound.derivation = .multiSelect → c.derivation = .multiSelect) ∧
      (bound.derivation = .filter → c.derivation = .filter) := by
  obtain ⟨lineage, keys, derivation, _, rfl⟩ := rebind_present present done
  have same : (c.rebuild lineage keys).lineage = lineage := rfl
  simp only [derivation_eq_multiSelect, derivation_eq_filter, same]
  cases former : c.lineage with
  | none =>
    rw [former, Lineage.rebindOption] at derivation
    cases derivation
    exact ⟨nofun, nofun⟩
  | some old =>
    rw [former, Lineage.rebindOption] at derivation
    obtain ⟨made, rebound, done⟩ := bind_eq_ok.mp derivation
    cases done
    simp only [Option.some.injEq]
    cases old with
    | filter content condition =>
      rw [Lineage.rebind] at rebound
      obtain ⟨_, _, rebound⟩ := bind_eq_ok.mp rebound
      obtain ⟨_, _, rebound⟩ := bind_eq_ok.mp rebound
      cases rebound
      simp
    | multiSelect multi =>
      rw [Lineage.rebind] at rebound
      cases rebound
      simp
    | call _ | window _ | aggregate _ =>
      rw [Lineage.rebind] at rebound
      obtain ⟨_, _, rebound⟩ := bind_eq_ok.mp rebound
      cases rebound
      simp

theorem lineage_rebind (present : c.isPlaceholder = false) (done : c.rebind resolve = .ok bound)
    (aligned : c.derivation = .multiSelect) : bound.lineage = c.lineage := by
  obtain ⟨multi, derived⟩ := derivation_eq_multiSelect.mp aligned
  obtain ⟨lineage, keys, rebound, _, rfl⟩ := rebind_present present done
  rw [derived, Lineage.rebindOption, Lineage.rebind] at rebound
  cases rebound
  exact derived.symm

theorem Sealed.rebind (whole : c.Sealed) (present : c.isPlaceholder = false)
    (done : c.rebind resolve = .ok bound) : bound.Sealed := by
  intro aligned x read
  have before := (derivation_rebind present done).1 aligned
  refine whole before x ?_
  unfold reads at read ⊢
  rwa [lineage_rebind present done before] at read

theorem hasPlaceholders_declaredGrain (bound : c.hasPlaceholders = false) :
    c.declaredGrain.hasPlaceholders = false := by
  rw [← c.withGrain_grain] at bound
  have settled := (isPlaceholder_of_mem_graded bound).1
  rw [withGrain_grain] at settled
  unfold declaredGrain
  split
  · rfl
  · simpa [Grain.hasPlaceholders, defaultGrain] using settled

/-- What a concept without placeholders is bound to has none, in grains either. -/
theorem hasPlaceholders_rebind (whole : ∀ x, c.Reaches x → x.Sealed)
    (present : ∀ x, c.Reaches x → x.isPlaceholder = false) (done : c.rebind resolve = .ok bound) :
    bound.hasPlaceholders = false := by
  induction bound using Concept.induction generalizing c with
  | step bound ih =>
    have own := present c (.refl c)
    have still := isPlaceholder_rebind own done
    have inside : ∀ x ∈ bound.mentions, x ∈ bound.inner → x.hasPlaceholders = false := by
      intro x member inner
      obtain ⟨y, part, rebound⟩ := exists_of_mem_rebinds (rebinds_mentions own done) member
      exact ih x inner (fun z within => whole z (.of_mem part within))
        (fun z within => present z (.of_mem part within)) rebound
    have parts : ∀ x ∈ bound.keys ++ bound.reads, x.hasPlaceholders = false := by
      intro x member
      rcases List.mem_append.mp member with key | read
      · refine inside x ?_ (mem_inner_of_mem_keys key)
        rw [mentions_eq still]
        exact List.mem_append_left _ key
      · by_cases aligned : bound.derivation = .multiSelect
        · exact (whole c (.refl c)).rebind own done aligned x read
        · exact inside x (mem_mentions_of_mem_reads still aligned read)
            (mem_inner_of_mem_reads aligned read)
    have bare : (bound.withGrain ∅).hasPlaceholders = false :=
      hasPlaceholders_eq_false.mpr ⟨rfl, still, parts⟩
    refine hasPlaceholders_eq_false.mpr ⟨?_, still, parts⟩
    -- the grain is kept, or computed from parts that are bound already
    have computed := hasPlaceholders_declaredGrain bare
    obtain ⟨lineage, keys, _, _, rfl⟩ := rebind_present own done
    by_cases former : c.grain.hasPlaceholders = true
    · have made : (c.rebuild lineage keys).grain =
          ((c.rebuild lineage keys).withGrain ∅).declaredGrain := if_pos former
      rw [made]
      exact computed
    · have kept : (c.rebuild lineage keys).grain = c.grain := if_neg former
      rw [kept]
      exact Bool.eq_false_iff.mpr former

/-- Binding fails over a call that does not fit its signature, or over a placeholder that is not
found. -/
theorem blames_of_rebind {e : PlanError} (failed : c.rebind resolve = .error e) :
    e.IsInvalidCall ∨
      ∃ p, c.Reaches p ∧ p.isPlaceholder = true ∧ resolve p.address = .error e := by
  refine ((carries_rebind c).error failed).imp_right ?_
  rintro ⟨_, member, found⟩
  rwa [List.mem_singleton.mp member] at found

end Concept

end Rebinding

end SemanticQuery
