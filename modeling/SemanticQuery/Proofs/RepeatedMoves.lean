import SemanticQuery.Proofs.Namespaces

/-!
Moves to a namespace reach every reference. What an expression reads after a move is what it read
before, each concept moved, and nothing of the namespace that it came from is left: a further move
gives what the move alone would have given.
-/

namespace SemanticQuery

section Overwriting

variable (former space : String)

/-!
The last move alone decides. The keys of a concept and the selects that it is aligned from do not
move, so they are the same after one move and after two; all other parts are moved again.
-/

mutual

theorem Concept.withNamespace_withNamespace (c : Concept) :
    (c.withNamespace former).withNamespace space = c.withNamespace space := by
  obtain ⟨name, datatype, purpose, metadata, lineage, ns, keys, grain⟩ := c
  simp only [Concept.withNamespace, Lineage.withNamespaceOption_withNamespaceOption lineage,
    Grain.withNamespace_withNamespace grain]

theorem Concept.withNamespaceAll_withNamespaceAll (cs : List Concept) :
    Concept.withNamespaceAll space (Concept.withNamespaceAll former cs) =
      Concept.withNamespaceAll space cs := by
  cases cs with
  | nil => simp only [Concept.withNamespaceAll]
  | cons c cs =>
    simp only [Concept.withNamespaceAll, Concept.withNamespace_withNamespace c,
      Concept.withNamespaceAll_withNamespaceAll cs]

theorem Grain.withNamespace_withNamespace (g : Grain) :
    (g.withNamespace former).withNamespace space = g.withNamespace space := by
  obtain ⟨components, nested⟩ := g
  simp only [Grain.withNamespace, Concept.withNamespaceAll_withNamespaceAll components]

theorem Lineage.withNamespaceOption_withNamespaceOption (lineage : Option Lineage) :
    Lineage.withNamespaceOption space (Lineage.withNamespaceOption former lineage) =
      Lineage.withNamespaceOption space lineage := by
  cases lineage with
  | none => simp only [Lineage.withNamespaceOption]
  | some lineage =>
    simp only [Lineage.withNamespaceOption, Lineage.withNamespace_withNamespace lineage]

theorem Lineage.withNamespace_withNamespace (lineage : Lineage) :
    (lineage.withNamespace former).withNamespace space = lineage.withNamespace space := by
  cases lineage with
  | call f => simp only [Lineage.withNamespace, Call.withNamespace_withNamespace f]
  | window w => simp only [Lineage.withNamespace, Window.withNamespace_withNamespace w]
  | filter content condition =>
    simp only [Lineage.withNamespace, Concept.withNamespace_withNamespace content,
      Condition.withNamespace_withNamespace condition]
  | aggregate a => simp only [Lineage.withNamespace, Aggregate.withNamespace_withNamespace a]
  | multiSelect multi => simp only [Lineage.withNamespace]

theorem Call.withNamespace_withNamespace (f : Call) :
    (f.withNamespace former).withNamespace space = f.withNamespace space := by
  obtain ⟨operator, arguments, datatype, purpose⟩ := f
  simp only [Call.withNamespace, Expr.withNamespaceAll_withNamespaceAll arguments]

theorem Aggregate.withNamespace_withNamespace (a : Aggregate) :
    (a.withNamespace former).withNamespace space = a.withNamespace space := by
  obtain ⟨call, groupBy⟩ := a
  simp only [Aggregate.withNamespace, Call.withNamespace_withNamespace call,
    Concept.withNamespaceAll_withNamespaceAll groupBy]

theorem Expr.withNamespace_withNamespace (e : Expr) :
    (e.withNamespace former).withNamespace space = e.withNamespace space := by
  cases e with
  | concept c => simp only [Expr.withNamespace, Concept.withNamespace_withNamespace c]
  | literal l => simp only [Expr.withNamespace]
  | call f => simp only [Expr.withNamespace, Call.withNamespace_withNamespace f]
  | aggregate a => simp only [Expr.withNamespace, Aggregate.withNamespace_withNamespace a]
  | case branches otherwise =>
    simp only [Expr.withNamespace, Branch.withNamespaceAll_withNamespaceAll branches,
      Expr.withNamespaceOption_withNamespaceOption otherwise]
  | datatype t => simp only [Expr.withNamespace]
  | list items => simp only [Expr.withNamespace]

theorem Expr.withNamespaceAll_withNamespaceAll (es : List Expr) :
    Expr.withNamespaceAll space (Expr.withNamespaceAll former es) =
      Expr.withNamespaceAll space es := by
  cases es with
  | nil => simp only [Expr.withNamespaceAll]
  | cons e es =>
    simp only [Expr.withNamespaceAll, Expr.withNamespace_withNamespace e,
      Expr.withNamespaceAll_withNamespaceAll es]

theorem Expr.withNamespaceOption_withNamespaceOption (e : Option Expr) :
    Expr.withNamespaceOption space (Expr.withNamespaceOption former e) =
      Expr.withNamespaceOption space e := by
  cases e with
  | none => simp only [Expr.withNamespaceOption]
  | some e => simp only [Expr.withNamespaceOption, Expr.withNamespace_withNamespace e]

theorem Branch.withNamespace_withNamespace (b : Branch) :
    (b.withNamespace former).withNamespace space = b.withNamespace space := by
  obtain ⟨condition, result⟩ := b
  simp only [Branch.withNamespace, Condition.withNamespace_withNamespace condition,
    Expr.withNamespace_withNamespace result]

theorem Branch.withNamespaceAll_withNamespaceAll (bs : List Branch) :
    Branch.withNamespaceAll space (Branch.withNamespaceAll former bs) =
      Branch.withNamespaceAll space bs := by
  cases bs with
  | nil => simp only [Branch.withNamespaceAll]
  | cons b bs =>
    simp only [Branch.withNamespaceAll, Branch.withNamespace_withNamespace b,
      Branch.withNamespaceAll_withNamespaceAll bs]

theorem Condition.withNamespace_withNamespace (condition : Condition) :
    (condition.withNamespace former).withNamespace space = condition.withNamespace space := by
  cases condition with
  | compare left right comparator =>
    simp only [Condition.withNamespace, Expr.withNamespace_withNamespace left,
      Expr.withNamespace_withNamespace right]
  | combine left right connective =>
    simp only [Condition.withNamespace, Condition.withNamespace_withNamespace left,
      Condition.withNamespace_withNamespace right]
  | parenthesis inner =>
    simp only [Condition.withNamespace, Condition.withNamespace_withNamespace inner]

theorem Window.withNamespace_withNamespace (w : Window) :
    (w.withNamespace former).withNamespace space = w.withNamespace space := by
  obtain ⟨kind, content, orderBy, partitions, index⟩ := w
  simp only [Window.withNamespace, Concept.withNamespace_withNamespace content,
    OrderItem.withNamespaceAll_withNamespaceAll orderBy,
    Concept.withNamespaceAll_withNamespaceAll partitions]

theorem OrderItem.withNamespace_withNamespace (item : OrderItem) :
    (item.withNamespace former).withNamespace space = item.withNamespace space := by
  obtain ⟨concept, direction⟩ := item
  simp only [OrderItem.withNamespace, Concept.withNamespace_withNamespace concept]

theorem OrderItem.withNamespaceAll_withNamespaceAll (items : List OrderItem) :
    OrderItem.withNamespaceAll space (OrderItem.withNamespaceAll former items) =
      OrderItem.withNamespaceAll space items := by
  cases items with
  | nil => simp only [OrderItem.withNamespaceAll]
  | cons item items =>
    simp only [OrderItem.withNamespaceAll, OrderItem.withNamespace_withNamespace item,
      OrderItem.withNamespaceAll_withNamespaceAll items]

end

end Overwriting

/-- A move reaches every reference: the concepts that are read move, in their order and as often as
they are read, types stay, and what a former move did is overwritten. -/
theorem withNamespace_reaches (former space : String) :
    (∀ e : Expr, (e.withNamespace space).reads = e.reads.map (·.withNamespace space) ∧
      (e.withNamespace space).datatype? = e.datatype? ∧
      (e.withNamespace former).withNamespace space = e.withNamespace space) ∧
    (∀ f : Call, (f.withNamespace space).reads = f.reads.map (·.withNamespace space) ∧
      (f.withNamespace space).datatype = f.datatype ∧
      (f.withNamespace former).withNamespace space = f.withNamespace space) ∧
    (∀ a : Aggregate, (a.withNamespace space).reads = a.reads.map (·.withNamespace space) ∧
      (a.withNamespace space).call.datatype = a.call.datatype ∧
      (a.withNamespace former).withNamespace space = a.withNamespace space) ∧
    (∀ condition : Condition,
      (condition.withNamespace space).reads = condition.reads.map (·.withNamespace space) ∧
      (condition.withNamespace former).withNamespace space = condition.withNamespace space) ∧
    (∀ c : Concept, (c.withNamespace former).withNamespace space = c.withNamespace space) ∧
    (∀ g : Grain, (g.withNamespace former).withNamespace space = g.withNamespace space) ∧
    ∀ lineage : Lineage,
      (lineage.withNamespace former).withNamespace space = lineage.withNamespace space := by
  refine ⟨fun e => ⟨?_, ?_, ?_⟩, fun f => ⟨?_, ?_, ?_⟩, fun a => ⟨?_, ?_, ?_⟩,
    fun condition => ⟨?_, ?_⟩, ?_, ?_, ?_⟩
  · exact Expr.reads_withNamespace space e
  · exact Expr.datatype?_withNamespace space e
  · exact Expr.withNamespace_withNamespace former space e
  · exact Call.reads_withNamespace space f
  · exact Call.datatype_withNamespace space f
  · exact Call.withNamespace_withNamespace former space f
  · exact Aggregate.reads_withNamespace space a
  · rw [Aggregate.call_withNamespace, Call.datatype_withNamespace]
  · exact Aggregate.withNamespace_withNamespace former space a
  · exact Condition.reads_withNamespace space condition
  · exact Condition.withNamespace_withNamespace former space condition
  · exact Concept.withNamespace_withNamespace former space
  · exact Grain.withNamespace_withNamespace former space
  · exact Lineage.withNamespace_withNamespace former space

end SemanticQuery
