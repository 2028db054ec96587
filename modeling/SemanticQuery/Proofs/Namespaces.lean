import SemanticQuery.Call
import SemanticQuery.Concept.Namespace
import SemanticQuery.Proofs.Placeholders

/-!
What a move to another namespace changes. Everything that is written in a derivation moves, and no
type or purpose changes.
-/

namespace SemanticQuery

variable (space : String)

namespace Concept

variable (c : Concept)

theorem withNamespace_eq :
    c.withNamespace space = { c with
      lineage := c.lineage.map (·.withNamespace space)
      ns := space
      grain := c.grain.withNamespace space } := by
  obtain ⟨name, datatype, purpose, metadata, lineage, ns, keys, grain⟩ := c
  rw [withNamespace]
  cases lineage with
  | none => rw [Lineage.withNamespaceOption]; rfl
  | some lineage => rw [Lineage.withNamespaceOption]; rfl

@[simp] theorem name_withNamespace : (c.withNamespace space).name = c.name := by
  rw [withNamespace_eq]

@[simp] theorem ns_withNamespace : (c.withNamespace space).ns = space := by
  rw [withNamespace_eq]

@[simp] theorem datatype_withNamespace : (c.withNamespace space).datatype = c.datatype := by
  rw [withNamespace_eq]

@[simp] theorem purpose_withNamespace : (c.withNamespace space).purpose = c.purpose := by
  rw [withNamespace_eq]

@[simp] theorem keys_withNamespace : (c.withNamespace space).keys = c.keys := by
  rw [withNamespace_eq]

@[simp] theorem lineage_withNamespace :
    (c.withNamespace space).lineage = c.lineage.map (·.withNamespace space) := by
  rw [withNamespace_eq]

theorem withNamespaceAll_eq (cs : List Concept) :
    Concept.withNamespaceAll space cs = cs.map (·.withNamespace space) := by
  induction cs with
  | nil => rw [Concept.withNamespaceAll, List.map_nil]
  | cons c cs ih => rw [Concept.withNamespaceAll, ih, List.map_cons]

@[simp] theorem components_withNamespace (g : Grain) :
    (g.withNamespace space).components = g.components.map (·.withNamespace space) := by
  cases g
  rw [Grain.withNamespace, withNamespaceAll_eq]

@[simp] theorem grain_withNamespace :
    (c.withNamespace space).grain = c.grain.withNamespace space := by
  rw [withNamespace_eq]

theorem address_withNamespace : (c.withNamespace space).address = space ++ "." ++ c.name := by
  rw [address, ns_withNamespace, name_withNamespace]

@[simp] theorem isPlaceholder_withNamespace :
    (c.withNamespace space).isPlaceholder = c.isPlaceholder := by
  simp [isPlaceholder]

end Concept

theorem OrderItem.concepts_withNamespaceAll (items : List OrderItem) :
    (OrderItem.withNamespaceAll space items).map (·.concept) =
      (items.map (·.concept)).map (·.withNamespace space) := by
  induction items with
  | nil => rw [OrderItem.withNamespaceAll]; rfl
  | cons item items ih =>
    cases item
    rw [OrderItem.withNamespaceAll, OrderItem.withNamespace, List.map_cons, ih]
    rfl

mutual

theorem Expr.reads_withNamespace (e : Expr) :
    (e.withNamespace space).reads = e.reads.map (·.withNamespace space) := by
  cases e with
  | concept c => simp [Expr.withNamespace, Expr.reads]
  | literal l => simp [Expr.withNamespace, Expr.reads]
  | call f => rw [Expr.withNamespace, Expr.reads, Expr.reads, Call.reads_withNamespace f]
  | aggregate a => rw [Expr.withNamespace, Expr.reads, Expr.reads, Aggregate.reads_withNamespace a]
  | case branches otherwise =>
    rw [Expr.withNamespace, Expr.reads, Expr.reads, Branch.readsAll_withNamespace branches,
      Expr.readsOption_withNamespace otherwise, List.map_append]
  | datatype t => simp [Expr.withNamespace, Expr.reads]
  | list items => simp [Expr.withNamespace, Expr.reads]

theorem Expr.readsAll_withNamespace (es : List Expr) :
    Expr.readsAll (Expr.withNamespaceAll space es) =
      (Expr.readsAll es).map (·.withNamespace space) := by
  cases es with
  | nil => simp [Expr.withNamespaceAll, Expr.readsAll]
  | cons e es =>
    rw [Expr.withNamespaceAll, Expr.readsAll, Expr.readsAll, Expr.reads_withNamespace e,
      Expr.readsAll_withNamespace es, List.map_append]

theorem Expr.readsOption_withNamespace (e : Option Expr) :
    Expr.readsOption (Expr.withNamespaceOption space e) =
      (Expr.readsOption e).map (·.withNamespace space) := by
  cases e with
  | none => simp [Expr.withNamespaceOption, Expr.readsOption]
  | some e =>
    rw [Expr.withNamespaceOption, Expr.readsOption, Expr.readsOption, Expr.reads_withNamespace e]

theorem Call.reads_withNamespace (f : Call) :
    (f.withNamespace space).reads = f.reads.map (·.withNamespace space) := by
  obtain ⟨operator, arguments, datatype, purpose⟩ := f
  rw [Call.withNamespace, Call.reads, Call.reads, Expr.readsAll_withNamespace arguments]

theorem Aggregate.reads_withNamespace (a : Aggregate) :
    (a.withNamespace space).reads = a.reads.map (·.withNamespace space) := by
  obtain ⟨call, groupBy⟩ := a
  rw [Aggregate.withNamespace, Aggregate.reads, Aggregate.reads, Call.reads_withNamespace call,
    Concept.withNamespaceAll_eq, List.map_append]

theorem Branch.reads_withNamespace (b : Branch) :
    (b.withNamespace space).reads = b.reads.map (·.withNamespace space) := by
  obtain ⟨condition, result⟩ := b
  rw [Branch.withNamespace, Branch.reads, Branch.reads, Condition.reads_withNamespace condition,
    Expr.reads_withNamespace result, List.map_append]

theorem Branch.readsAll_withNamespace (bs : List Branch) :
    Branch.readsAll (Branch.withNamespaceAll space bs) =
      (Branch.readsAll bs).map (·.withNamespace space) := by
  cases bs with
  | nil => simp [Branch.withNamespaceAll, Branch.readsAll]
  | cons b bs =>
    rw [Branch.withNamespaceAll, Branch.readsAll, Branch.readsAll, Branch.reads_withNamespace b,
      Branch.readsAll_withNamespace bs, List.map_append]

theorem Condition.reads_withNamespace (condition : Condition) :
    (condition.withNamespace space).reads = condition.reads.map (·.withNamespace space) := by
  cases condition with
  | compare left right _ =>
    rw [Condition.withNamespace, Condition.reads, Condition.reads, Expr.reads_withNamespace left,
      Expr.reads_withNamespace right, List.map_append]
  | combine left right _ =>
    rw [Condition.withNamespace, Condition.reads, Condition.reads,
      Condition.reads_withNamespace left, Condition.reads_withNamespace right, List.map_append]
  | parenthesis inner =>
    rw [Condition.withNamespace, Condition.reads, Condition.reads,
      Condition.reads_withNamespace inner]

end

theorem Window.reads_withNamespace (w : Window) :
    (w.withNamespace space).reads = w.reads.map (·.withNamespace space) := by
  obtain ⟨kind, content, orderBy, partitions, index⟩ := w
  simp [Window.withNamespace, Window.reads, Concept.withNamespaceAll_eq,
    OrderItem.concepts_withNamespaceAll]

theorem Lineage.operands_withNamespace (lineage : Lineage) :
    (lineage.withNamespace space).operands = lineage.operands.map (·.withNamespace space) := by
  cases lineage with
  | call f => rw [Lineage.withNamespace]; exact Call.reads_withNamespace space f
  | window w => rw [Lineage.withNamespace]; exact Window.reads_withNamespace space w
  | filter content condition =>
    rw [Lineage.withNamespace, Lineage.operands, Condition.reads_withNamespace]
    rfl
  | aggregate a => rw [Lineage.withNamespace]; exact Aggregate.reads_withNamespace space a
  | multiSelect multi => rw [Lineage.withNamespace]; rfl

theorem Concept.mentions_withNamespace (c : Concept) (present : c.isPlaceholder = false) :
    (c.withNamespace space).mentions =
      c.keys ++ ((c.lineage.map Lineage.operands).getD []).map (·.withNamespace space) := by
  rw [Concept.mentions_eq (by simpa using present), Concept.keys_withNamespace,
    Concept.lineage_withNamespace]
  cases c.lineage with
  | none => rfl
  | some lineage => exact congrArg _ (Lineage.operands_withNamespace space lineage)

section Types

@[simp] theorem Call.operator_withNamespace (f : Call) :
    (f.withNamespace space).operator = f.operator := by
  cases f
  rw [Call.withNamespace]

@[simp] theorem Call.datatype_withNamespace (f : Call) :
    (f.withNamespace space).datatype = f.datatype := by
  cases f
  rw [Call.withNamespace]

theorem Expr.withNamespaceAll_eq (es : List Expr) :
    Expr.withNamespaceAll space es = es.map (·.withNamespace space) := by
  induction es with
  | nil => rw [Expr.withNamespaceAll, List.map_nil]
  | cons e es ih => rw [Expr.withNamespaceAll, ih, List.map_cons]

@[simp] theorem Call.arguments_withNamespace (f : Call) :
    (f.withNamespace space).arguments = f.arguments.map (·.withNamespace space) := by
  cases f
  rw [Call.withNamespace, Expr.withNamespaceAll_eq]

theorem Aggregate.call_withNamespace (a : Aggregate) :
    (a.withNamespace space).call = a.call.withNamespace space := by
  cases a
  rw [Aggregate.withNamespace]

@[simp] theorem Expr.checkedType?_withNamespace (e : Expr) :
    (e.withNamespace space).checkedType? = e.checkedType? := by
  cases e <;> simp [Expr.withNamespace, Expr.checkedType?, Aggregate.call_withNamespace]

@[simp] theorem Expr.datatype?_withNamespace : (e : Expr) →
    (e.withNamespace space).datatype? = e.datatype?
  | .concept c => by simp [Expr.withNamespace, Expr.datatype?]
  | .literal l => by simp [Expr.withNamespace]
  | .call f => by simp [Expr.withNamespace, Expr.datatype?]
  | .aggregate a => by simp [Expr.withNamespace, Expr.datatype?, Aggregate.call_withNamespace]
  | .case (⟨condition, result⟩ :: rest) otherwise => by
    rw [Expr.withNamespace, Branch.withNamespaceAll, Branch.withNamespace, Expr.datatype?,
      Expr.datatype?_withNamespace result, Expr.datatype?]
  | .case [] otherwise => by simp [Expr.withNamespace, Branch.withNamespaceAll, Expr.datatype?]
  | .datatype t => by simp [Expr.withNamespace]
  | .list items => by simp [Expr.withNamespace]

theorem Lineage.datatype_withNamespace (lineage : Lineage) :
    (lineage.withNamespace space).datatype = lineage.datatype := by
  cases lineage with
  | call f => simp [Lineage.withNamespace, Lineage.datatype]
  | window w =>
    obtain ⟨kind, content, orderBy, partitions, index⟩ := w
    simp [Lineage.withNamespace, Window.withNamespace, Lineage.datatype]
  | filter content condition => simp [Lineage.withNamespace, Lineage.datatype]
  | aggregate a => simp [Lineage.withNamespace, Lineage.datatype, Aggregate.call_withNamespace]
  | multiSelect multi => rw [Lineage.withNamespace]

end Types

end SemanticQuery
