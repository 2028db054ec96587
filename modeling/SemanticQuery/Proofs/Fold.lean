import SemanticQuery.Plan.Search
import SemanticQuery.Proofs.Unique

/-!
Folds and inductions over concepts. A fold is the function on the concept and on the results for the
concepts directly inside it, and what holds of a concept as soon as it holds of those inside it
holds of every concept.
-/

namespace SemanticQuery

/-- A concept with the result of a fold. -/
def Concept.paired (f : Concept → Parts β → β) (c : Concept) : Concept × β := (c, c.fold f)

/-- An item of a select with the result of a fold for its output. -/
def SelectItem.paired (f : Concept → Parts β → β) (item : SelectItem) : SelectItem × β :=
  (item, item.output.fold f)

theorem Concept.foldAll_eq (f : Concept → Parts β → β) (cs : List Concept) :
    Concept.foldAll f cs = cs.map (·.paired f) := by
  induction cs with
  | nil => rw [Concept.foldAll, List.map_nil]
  | cons c cs ih => rw [Concept.foldAll, ih, List.map_cons, Concept.paired]

mutual

theorem Expr.fold_eq (f : Concept → Parts β → β) (e : Expr) :
    e.fold f = e.reads.map (·.paired f) := by
  cases e with
  | concept c => simp [Expr.fold, Expr.reads, Concept.paired]
  | literal => simp [Expr.fold, Expr.reads]
  | call call => rw [Expr.fold, Expr.reads, Call.fold_eq]
  | aggregate a => rw [Expr.fold, Expr.reads, Aggregate.fold_eq]
  | case branches otherwise =>
    rw [Expr.fold, Expr.reads, Branch.foldAll_eq, Expr.foldOption_eq, List.map_append]
  | datatype => simp [Expr.fold, Expr.reads]
  | list => simp [Expr.fold, Expr.reads]

theorem Expr.foldAll_eq (f : Concept → Parts β → β) (es : List Expr) :
    Expr.foldAll f es = (Expr.readsAll es).map (·.paired f) := by
  cases es with
  | nil => simp [Expr.foldAll, Expr.readsAll]
  | cons e es => rw [Expr.foldAll, Expr.readsAll, Expr.fold_eq, Expr.foldAll_eq, List.map_append]

theorem Expr.foldOption_eq (f : Concept → Parts β → β) (e : Option Expr) :
    Expr.foldOption f e = (Expr.readsOption e).map (·.paired f) := by
  cases e with
  | none => simp [Expr.foldOption, Expr.readsOption]
  | some e => rw [Expr.foldOption, Expr.readsOption, Expr.fold_eq]

theorem Call.fold_eq (f : Concept → Parts β → β) (call : Call) :
    call.fold f = call.reads.map (·.paired f) := by
  cases call
  rw [Call.fold, Call.reads, Expr.foldAll_eq]

theorem Aggregate.fold_eq (f : Concept → Parts β → β) (a : Aggregate) :
    a.fold f = a.reads.map (·.paired f) := by
  cases a
  rw [Aggregate.fold, Aggregate.reads, Call.fold_eq, Concept.foldAll_eq, List.map_append]

theorem Branch.fold_eq (f : Concept → Parts β → β) (b : Branch) :
    b.fold f = b.reads.map (·.paired f) := by
  cases b
  rw [Branch.fold, Branch.reads, Condition.fold_eq, Expr.fold_eq, List.map_append]

theorem Branch.foldAll_eq (f : Concept → Parts β → β) (bs : List Branch) :
    Branch.foldAll f bs = (Branch.readsAll bs).map (·.paired f) := by
  cases bs with
  | nil => simp [Branch.foldAll, Branch.readsAll]
  | cons b bs =>
    rw [Branch.foldAll, Branch.readsAll, Branch.fold_eq, Branch.foldAll_eq, List.map_append]

theorem Condition.fold_eq (f : Concept → Parts β → β) (condition : Condition) :
    condition.fold f = condition.reads.map (·.paired f) := by
  cases condition with
  | compare left right _ =>
    rw [Condition.fold, Condition.reads, Expr.fold_eq, Expr.fold_eq, List.map_append]
  | combine left right _ =>
    rw [Condition.fold, Condition.reads, Condition.fold_eq f left, Condition.fold_eq f right,
      List.map_append]
  | parenthesis inner => rw [Condition.fold, Condition.reads, Condition.fold_eq f inner]

end

theorem OrderItem.foldAll_eq (f : Concept → Parts β → β) (items : List OrderItem) :
    OrderItem.foldAll f items = (items.map (·.concept)).map (·.paired f) := by
  induction items with
  | nil => rw [OrderItem.foldAll, List.map_nil, List.map_nil]
  | cons item items ih =>
    cases item
    rw [OrderItem.foldAll, OrderItem.fold, ih, List.map_cons, List.map_cons, Concept.paired]

theorem Window.fold_eq (f : Concept → Parts β → β) (w : Window) :
    w.fold f = w.reads.map (·.paired f) := by
  cases w
  simp [Window.fold, Window.reads, Concept.foldAll_eq, OrderItem.foldAll_eq, Concept.paired]

theorem SelectItem.foldAll_eq (f : Concept → Parts β → β) (items : List SelectItem) :
    SelectItem.foldAll f items = items.map (·.paired f) := by
  induction items with
  | nil => rw [SelectItem.foldAll, List.map_nil]
  | cons item items ih =>
    rw [SelectItem.foldAll, ih, List.map_cons, SelectItem.paired]
    cases item <;> rw [SelectItem.fold, SelectItem.output]

theorem Select.foldAll_eq (f : Concept → Parts β → β) (selects : List Select) :
    Select.foldAll f selects = selects.map fun s => s.selection.map (·.paired f) := by
  induction selects with
  | nil => rw [Select.foldAll, List.map_nil]
  | cons select selects ih =>
    cases select
    rw [Select.foldAll, Select.fold, ih, List.map_cons, SelectItem.foldAll_eq]

/-- What a fold sees of a derivation. -/
def Lineage.folded (f : Concept → Parts β → β) : Lineage → LineageParts β
  | .aggregate a => { reads := a.reads.map (·.paired f), groupBy := a.groupBy.map (·.paired f) }
  | .multiSelect multi => { branches := multi.selects.map fun s => s.selection.map (·.paired f) }
  | lineage => { reads := lineage.reads.map (·.paired f) }

theorem Lineage.fold_eq (f : Concept → Parts β → β) (lineage : Lineage) :
    lineage.fold f = lineage.folded f := by
  cases lineage with
  | call call => rw [Lineage.fold, Call.fold_eq]; rfl
  | window window => rw [Lineage.fold, Window.fold_eq]; rfl
  | filter content condition =>
    have kept : Names.uniqueOn (fun part => part.1.address) (condition.fold f) =
        (Concept.unique condition.reads).map (·.paired f) := by
      rw [Condition.fold_eq, Names.uniqueOn_map]
      rfl
    rw [Lineage.fold, kept]
    rfl
  | aggregate a =>
    cases a
    rw [Lineage.fold, Call.fold_eq, Concept.foldAll_eq, Lineage.folded, Aggregate.reads,
      List.map_append]
  | multiSelect multi =>
    cases multi
    rw [Lineage.fold, MultiSelect.fold, Select.foldAll_eq, Lineage.folded]

/-- What a fold sees of a concept. -/
def Concept.folded (f : Concept → Parts β → β) (c : Concept) : Parts β :=
  ⟨fun _ => c.keys.map (·.paired f), fun _ => (c.lineage.map (·.folded f)).getD {},
    fun _ => c.grain.components.map (·.paired f)⟩

theorem Concept.fold_eq (f : Concept → Parts β → β) (c : Concept) :
    c.fold f = f c (c.folded f) := by
  obtain ⟨name, datatype, purpose, metadata, lineage, ns, keys, grain⟩ := c
  have atGrain : grain.fold f = grain.components.map (·.paired f) := by
    cases grain
    rw [Grain.fold, Concept.foldAll_eq]
  have atLineage : Lineage.foldOption f lineage = (lineage.map (·.folded f)).getD {} := by
    cases lineage with
    | none => rw [Lineage.foldOption]; rfl
    | some lineage => rw [Lineage.foldOption, Lineage.fold_eq]; rfl
  rw [Concept.fold, Concept.foldAll_eq, atGrain, atLineage]
  rfl

/-- The concepts directly inside a derivation. -/
def Lineage.inner : Lineage → List Concept
  | .multiSelect multi => multi.selects.flatMap fun s => s.selection.map (·.output)
  | lineage => lineage.reads

/-- The concepts directly inside a concept: its keys, those of its derivation, and the components of
its grain. -/
def Concept.inner (c : Concept) : List Concept :=
  c.keys ++ (c.lineage.map (·.inner)).getD [] ++ c.grain.components

@[simp] theorem total_append (ms ns : List Nat) : total (ms ++ ns) = total ms + total ns := by
  induction ms with
  | nil => simp [total]
  | cons m ms ih => simp [total, ih]; omega

theorem le_total_of_mem {n : Nat} {ns : List Nat} (member : n ∈ ns) : n ≤ total ns := by
  induction ns with
  | nil => simp at member
  | cons first rest ih =>
    simp only [total]
    rcases List.mem_cons.mp member with rfl | member
    · omega
    · have := ih member
      omega

namespace Concept

/-- What a fold sees inside a concept, with the results in the order of the concepts inside. -/
theorem map_snd_folded (f : Concept → Parts β → β) (c : Concept) :
    ((c.folded f).keys ()).map (·.2) ++ (((c.folded f).lineage ()).reads.map (·.2) ++
      ((c.folded f).lineage ()).branches.flatten.map (·.2)) ++ ((c.folded f).grain ()).map (·.2) =
    c.inner.map (·.fold f) := by
  have plain (cs : List Concept) : (cs.map (·.paired f)).map (·.2) = cs.map (·.fold f) := by
    simp [paired]
  have inLineage (lineage : Lineage) : (lineage.folded f).reads.map (·.2) ++
      (lineage.folded f).branches.flatten.map (·.2) = lineage.inner.map (·.fold f) := by
    cases lineage with
    | multiSelect multi =>
      simp [Lineage.folded, Lineage.inner, List.map_flatMap, SelectItem.paired,
        List.flatten_eq_flatMap, List.flatMap_map, Function.comp_def]
    | call call => simp [Lineage.folded, Lineage.inner, plain]
    | window window => simp [Lineage.folded, Lineage.inner, plain]
    | filter content condition => simp [Lineage.folded, Lineage.inner, plain]
    | aggregate a => simp [Lineage.folded, Lineage.inner, plain, Lineage.reads]
  simp only [inner, List.map_append, folded, plain]
  cases c.lineage with
  | none => simp
  | some lineage =>
    rw [Option.map_some, Option.map_some, Option.getD_some, Option.getD_some, inLineage]

theorem weight_eq (c : Concept) : c.weight = 1 + total (c.inner.map weight) := by
  rw [weight, fold_eq]
  refine Eq.trans ?_ (congrArg (fun parts => 1 + total parts) (map_snd_folded _ c))
  simp only [total_append]
  omega

theorem weight_lt_of_mem_inner {c x : Concept} (member : x ∈ c.inner) : x.weight < c.weight := by
  have bound := le_total_of_mem (List.mem_map_of_mem (f := weight) member)
  rw [weight_eq c]
  omega

/-- What holds of a concept if it holds of all concepts directly inside holds of every concept. -/
theorem induction {motive : Concept → Prop}
    (step : ∀ c : Concept, (∀ x ∈ c.inner, motive x) → motive c) (c : Concept) : motive c :=
  step c fun x _ => induction step x
termination_by c.weight
decreasing_by exact weight_lt_of_mem_inner ‹_›

end Concept

end SemanticQuery
