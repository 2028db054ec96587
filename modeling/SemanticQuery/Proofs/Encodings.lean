import Mathlib.Data.List.Nodup
import SemanticQuery.Concept.Encoding

/-!
The JSON form of a concept, an expression or a condition determines it. The words of the closed
vocabularies have different labels, each constructor has a label of its own, and the members of an
object stand in a fixed order, so that the form is taken apart along the structure of what it
encodes.
-/

namespace SemanticQuery

/-- Labels that are all different in a list of all words tell the words apart. -/
theorem injective_of_nodup {label : α → String} (all : List α) (complete : ∀ a, a ∈ all)
    (nodup : (all.map label).Nodup) : Function.Injective label := by
  intro a b same
  exact List.inj_on_of_nodup_map nodup (complete a) (complete b) same

theorem DataType.label_injective : Function.Injective DataType.label :=
  injective_of_nodup all (by intro t; cases t <;> decide) (by decide)

theorem Purpose.label_injective : Function.Injective Purpose.label :=
  injective_of_nodup all (by intro p; cases p <;> decide) (by decide)

theorem ConceptSource.label_injective : Function.Injective ConceptSource.label :=
  injective_of_nodup all (by intro s; cases s <;> decide) (by decide)

theorem Operator.label_injective : Function.Injective Operator.label :=
  injective_of_nodup all (by intro o; cases o <;> decide) (by decide)

theorem WindowKind.label_injective : Function.Injective WindowKind.label :=
  injective_of_nodup all (by intro k; cases k <;> decide) (by decide)

theorem Comparator.label_injective : Function.Injective Comparator.label :=
  injective_of_nodup all (by intro c; cases c <;> decide) (by decide)

theorem Connective.label_injective : Function.Injective Connective.label :=
  injective_of_nodup all (by intro c; cases c <;> decide) (by decide)

theorem Direction.label_injective : Function.Injective Direction.label :=
  injective_of_nodup all (by intro d; cases d <;> decide) (by decide)

theorem Modifier.label_injective : Function.Injective Modifier.label :=
  injective_of_nodup all (by intro m; cases m <;> decide) (by decide)

namespace Json

@[simp]
theorem tagged_inj {label other : String} {value value' : Json} :
    tagged label value = tagged other value' ↔ label = other ∧ value = value' := by
  simp [tagged]

theorem object_cons_inj {key : String} {value value' : Json}
    {members members' : List (String × Json)} :
    object ((key, value) :: members) = object ((key, value') :: members') ↔
      value = value' ∧ object members = object members' := by
  simp

theorem ofList_injective {f : α → Json} (inj : Function.Injective f) :
    Function.Injective (ofList f) := by
  intro xs ys same
  exact List.map_injective_iff.mpr inj (Json.array.inj same)

theorem ofNat_injective : Function.Injective ofNat :=
  fun _ _ same => Int.ofNat.inj (Json.int.inj same)

theorem ofOption_injective {f : α → Json} (inj : Function.Injective f) (some : ∀ a, f a ≠ .null) :
    Function.Injective (ofOption f) := by
  intro x y same
  cases x with
  | none =>
    cases y with
    | none => rfl
    | some b => exact absurd same.symm (some b)
  | some a =>
    cases y with
    | none => exact absurd same (some a)
    | some b => exact congrArg Option.some (inj same)

end Json

theorem Metadata.toJson_injective : Function.Injective Metadata.toJson := by
  rintro ⟨description, line, source⟩ ⟨description', line', source'⟩ same
  simp only [Metadata.toJson, Json.object_cons_inj, Json.string.injEq, and_true] at same
  obtain ⟨descriptions, lines, sources⟩ := same
  cases Json.ofOption_injective (fun _ _ => Json.string.inj) (by simp) descriptions
  cases Json.ofOption_injective Json.ofNat_injective (by simp [Json.ofNat]) lines
  cases ConceptSource.label_injective sources
  rfl

theorem Literal.ctorIdx_eq {l m : Literal} (same : l.toJson = m.toJson) :
    l.ctorIdx = m.ctorIdx := by
  cases l <;> cases m <;> simp [Literal.toJson, Json.tagged, Literal.ctorIdx] at same ⊢

theorem Literal.toJson_injective : Function.Injective Literal.toJson := by
  intro l m same
  have alike := Literal.ctorIdx_eq same
  match l, m with
  | .string _, .string _ => simpa [Literal.toJson] using same
  | .integer _, .integer _ => simpa [Literal.toJson] using same
  | .float _, .float _ => simpa [Literal.toJson] using same
  | .bool _, .bool _ => simpa [Literal.toJson] using same
  | .null, .null => rfl

theorem Modifier.toJson_injective : Function.Injective Modifier.toJson :=
  fun _ _ same => Modifier.label_injective (Json.string.inj same)

theorem Lineage.ctorIdx_eq {l m : Lineage} (same : l.toJson = m.toJson) :
    l.ctorIdx = m.ctorIdx := by
  cases l <;> cases m <;> simp [Lineage.toJson, Json.tagged, Lineage.ctorIdx] at same ⊢

theorem Expr.ctorIdx_eq {e f : Expr} (same : e.toJson = f.toJson) : e.ctorIdx = f.ctorIdx := by
  cases e <;> cases f <;> simp [Expr.toJson, Json.tagged, Expr.ctorIdx] at same ⊢

theorem Condition.ctorIdx_eq {c d : Condition} (same : c.toJson = d.toJson) :
    c.ctorIdx = d.ctorIdx := by
  cases c <;> cases d <;> simp [Condition.toJson, Json.tagged, Condition.ctorIdx] at same ⊢

theorem SelectItem.ctorIdx_eq {item other : SelectItem} (same : item.toJson = other.toJson) :
    item.ctorIdx = other.ctorIdx := by
  cases item <;> cases other <;> simp [SelectItem.toJson, Json.tagged, SelectItem.ctorIdx] at same ⊢

theorem Lineage.toJson_ne_null (lineage : Lineage) : lineage.toJson ≠ .null := by
  cases lineage <;> simp [Lineage.toJson, Json.tagged]

theorem Expr.toJson_ne_null (e : Expr) : e.toJson ≠ .null := by
  cases e <;> simp [Expr.toJson, Json.tagged]

mutual

/-- The form of a concept determines it, by induction on both along with everything inside. -/
theorem Concept.toJson_inj (c d : Concept) (same : c.toJson = d.toJson) : c = d := by
  match c, d with
  | ⟨name, datatype, purpose, metadata, lineage, ns, keys, grain⟩,
    ⟨name', datatype', purpose', metadata', lineage', ns', keys', grain'⟩ =>
    simp only [Concept.toJson, Json.object_cons_inj, Json.string.injEq, Json.array.injEq,
      and_true] at same
    obtain ⟨rfl, types, purposes, metadatas, lineages, rfl, owners, grains⟩ := same
    cases DataType.label_injective types
    cases Purpose.label_injective purposes
    cases Metadata.toJson_injective metadatas
    cases Lineage.toJsonOption_inj lineage lineage' lineages
    cases Concept.toJsonAll_inj keys keys' owners
    cases Grain.toJson_inj grain grain' grains
    rfl

theorem Concept.toJsonAll_inj (cs ds : List Concept)
    (same : Concept.toJsonAll cs = Concept.toJsonAll ds) : cs = ds := by
  match cs, ds with
  | [], [] => rfl
  | [], _ :: _ => cases same
  | _ :: _, [] => cases same
  | c :: cs, d :: ds =>
    obtain ⟨head, tail⟩ := List.cons.inj same
    rw [Concept.toJson_inj c d head, Concept.toJsonAll_inj cs ds tail]

theorem Grain.toJson_inj (g h : Grain) (same : g.toJson = h.toJson) : g = h := by
  match g, h with
  | ⟨components, nested⟩, ⟨components', nested'⟩ =>
    simp only [Grain.toJson, Json.object_cons_inj, Json.array.injEq, Json.bool.injEq,
      and_true] at same
    obtain ⟨lists, rfl⟩ := same
    cases Concept.toJsonAll_inj components components' lists
    rfl

theorem Lineage.toJsonOption_inj (l m : Option Lineage)
    (same : Lineage.toJsonOption l = Lineage.toJsonOption m) : l = m := by
  match l, m with
  | none, none => rfl
  | none, some lineage => exact absurd same.symm lineage.toJson_ne_null
  | some lineage, none => exact absurd same lineage.toJson_ne_null
  | some lineage, some lineage' =>
    rw [Lineage.toJson_inj lineage lineage' same]

theorem Lineage.toJson_inj (l m : Lineage) (same : l.toJson = m.toJson) : l = m := by
  have alike := Lineage.ctorIdx_eq same
  match l, m with
  | .call call, .call call' =>
    simp only [Lineage.toJson, Json.tagged_inj, true_and] at same
    rw [Call.toJson_inj call call' same]
  | .window window, .window window' =>
    simp only [Lineage.toJson, Json.tagged_inj, true_and] at same
    rw [Window.toJson_inj window window' same]
  | .filter content condition, .filter content' condition' =>
    simp only [Lineage.toJson, Json.tagged_inj, Json.object_cons_inj, true_and, and_true] at same
    cases Concept.toJson_inj content content' same.1
    cases Condition.toJson_inj condition condition' same.2
    rfl
  | .aggregate aggregate, .aggregate aggregate' =>
    simp only [Lineage.toJson, Json.tagged_inj, true_and] at same
    rw [Aggregate.toJson_inj aggregate aggregate' same]
  | .multiSelect multi, .multiSelect multi' =>
    simp only [Lineage.toJson, Json.tagged_inj, true_and] at same
    rw [MultiSelect.toJson_inj multi multi' same]

theorem Call.toJson_inj (f g : Call) (same : f.toJson = g.toJson) : f = g := by
  match f, g with
  | ⟨operator, arguments, datatype, purpose⟩, ⟨operator', arguments', datatype', purpose'⟩ =>
    simp only [Call.toJson, Json.object_cons_inj, Json.string.injEq, Json.array.injEq,
      and_true] at same
    obtain ⟨operators, lists, types, purposes⟩ := same
    cases Operator.label_injective operators
    cases Expr.toJsonAll_inj arguments arguments' lists
    cases DataType.label_injective types
    cases Purpose.label_injective purposes
    rfl

theorem Aggregate.toJson_inj (a b : Aggregate) (same : a.toJson = b.toJson) : a = b := by
  match a, b with
  | ⟨call, groupBy⟩, ⟨call', groupBy'⟩ =>
    simp only [Aggregate.toJson, Json.object_cons_inj, Json.array.injEq, and_true] at same
    cases Call.toJson_inj call call' same.1
    cases Concept.toJsonAll_inj groupBy groupBy' same.2
    rfl

theorem Expr.toJson_inj (e f : Expr) (same : e.toJson = f.toJson) : e = f := by
  have alike := Expr.ctorIdx_eq same
  match e, f with
  | .concept c, .concept d =>
    simp only [Expr.toJson, Json.tagged_inj, true_and] at same
    rw [Concept.toJson_inj c d same]
  | .literal l, .literal m =>
    simp only [Expr.toJson, Json.tagged_inj, true_and] at same
    cases Literal.toJson_injective same
    rfl
  | .call call, .call call' =>
    simp only [Expr.toJson, Json.tagged_inj, true_and] at same
    rw [Call.toJson_inj call call' same]
  | .aggregate aggregate, .aggregate aggregate' =>
    simp only [Expr.toJson, Json.tagged_inj, true_and] at same
    rw [Aggregate.toJson_inj aggregate aggregate' same]
  | .case branches otherwise, .case branches' otherwise' =>
    simp only [Expr.toJson, Json.tagged_inj, Json.object_cons_inj, Json.array.injEq, true_and,
      and_true] at same
    cases Branch.toJsonAll_inj branches branches' same.1
    cases Expr.toJsonOption_inj otherwise otherwise' same.2
    rfl
  | .datatype t, .datatype u =>
    simp only [Expr.toJson, Json.tagged_inj, Json.string.injEq, true_and] at same
    cases DataType.label_injective same
    rfl
  | .list items, .list items' =>
    simp only [Expr.toJson, Json.tagged_inj, true_and] at same
    cases Json.ofList_injective Literal.toJson_injective same
    rfl

theorem Expr.toJsonAll_inj (es fs : List Expr) (same : Expr.toJsonAll es = Expr.toJsonAll fs) :
    es = fs := by
  match es, fs with
  | [], [] => rfl
  | [], _ :: _ => cases same
  | _ :: _, [] => cases same
  | e :: es, f :: fs =>
    obtain ⟨head, tail⟩ := List.cons.inj same
    rw [Expr.toJson_inj e f head, Expr.toJsonAll_inj es fs tail]

theorem Expr.toJsonOption_inj (e f : Option Expr)
    (same : Expr.toJsonOption e = Expr.toJsonOption f) : e = f := by
  match e, f with
  | none, none => rfl
  | none, some e => exact absurd same.symm e.toJson_ne_null
  | some e, none => exact absurd same e.toJson_ne_null
  | some e, some f =>
    rw [Expr.toJson_inj e f same]

theorem Branch.toJson_inj (b c : Branch) (same : b.toJson = c.toJson) : b = c := by
  match b, c with
  | ⟨condition, result⟩, ⟨condition', result'⟩ =>
    simp only [Branch.toJson, Json.object_cons_inj, and_true] at same
    cases Condition.toJson_inj condition condition' same.1
    cases Expr.toJson_inj result result' same.2
    rfl

theorem Branch.toJsonAll_inj (bs cs : List Branch)
    (same : Branch.toJsonAll bs = Branch.toJsonAll cs) : bs = cs := by
  match bs, cs with
  | [], [] => rfl
  | [], _ :: _ => cases same
  | _ :: _, [] => cases same
  | b :: bs, c :: cs =>
    obtain ⟨head, tail⟩ := List.cons.inj same
    rw [Branch.toJson_inj b c head, Branch.toJsonAll_inj bs cs tail]

theorem Condition.toJson_inj (c d : Condition) (same : c.toJson = d.toJson) : c = d := by
  have alike := Condition.ctorIdx_eq same
  match c, d with
  | .compare left right comparator, .compare left' right' comparator' =>
    simp only [Condition.toJson, Json.tagged_inj, Json.object_cons_inj, Json.string.injEq,
      true_and, and_true] at same
    obtain ⟨lefts, rights, comparators⟩ := same
    cases Expr.toJson_inj left left' lefts
    cases Expr.toJson_inj right right' rights
    cases Comparator.label_injective comparators
    rfl
  | .combine left right connective, .combine left' right' connective' =>
    simp only [Condition.toJson, Json.tagged_inj, Json.object_cons_inj, Json.string.injEq,
      true_and, and_true] at same
    obtain ⟨lefts, rights, connectives⟩ := same
    cases Condition.toJson_inj left left' lefts
    cases Condition.toJson_inj right right' rights
    cases Connective.label_injective connectives
    rfl
  | .parenthesis inner, .parenthesis inner' =>
    simp only [Condition.toJson, Json.tagged_inj, true_and] at same
    rw [Condition.toJson_inj inner inner' same]

theorem Window.toJson_inj (w v : Window) (same : w.toJson = v.toJson) : w = v := by
  match w, v with
  | ⟨kind, content, orderBy, partitions, index⟩,
    ⟨kind', content', orderBy', partitions', index'⟩ =>
    simp only [Window.toJson, Json.object_cons_inj, Json.string.injEq, Json.array.injEq,
      and_true] at same
    obtain ⟨kinds, contents, orders, lists, indices⟩ := same
    cases WindowKind.label_injective kinds
    cases Concept.toJson_inj content content' contents
    cases OrderItem.toJsonAll_inj orderBy orderBy' orders
    cases Concept.toJsonAll_inj partitions partitions' lists
    cases Json.ofOption_injective (fun _ _ => Json.int.inj) (by simp) indices
    rfl

theorem OrderItem.toJson_inj (i j : OrderItem) (same : i.toJson = j.toJson) : i = j := by
  match i, j with
  | ⟨concept, direction⟩, ⟨concept', direction'⟩ =>
    simp only [OrderItem.toJson, Json.object_cons_inj, Json.string.injEq, and_true] at same
    cases Concept.toJson_inj concept concept' same.1
    cases Direction.label_injective same.2
    rfl

theorem OrderItem.toJsonAll_inj (is js : List OrderItem)
    (same : OrderItem.toJsonAll is = OrderItem.toJsonAll js) : is = js := by
  match is, js with
  | [], [] => rfl
  | [], _ :: _ => cases same
  | _ :: _, [] => cases same
  | i :: is, j :: js =>
    obtain ⟨head, tail⟩ := List.cons.inj same
    rw [OrderItem.toJson_inj i j head, OrderItem.toJsonAll_inj is js tail]

theorem OrderItem.toJsonClause_inj (is js : Option (List OrderItem))
    (same : OrderItem.toJsonClause is = OrderItem.toJsonClause js) : is = js := by
  match is, js with
  | none, none => rfl
  | none, some _ => cases same
  | some _, none => cases same
  | some is, some js =>
    simp only [OrderItem.toJsonClause, Json.object_cons_inj, Json.array.injEq, and_true] at same
    rw [OrderItem.toJsonAll_inj is js same]

theorem Condition.toJsonClause_inj (c d : Option Condition)
    (same : Condition.toJsonClause c = Condition.toJsonClause d) : c = d := by
  match c, d with
  | none, none => rfl
  | none, some _ => cases same
  | some _, none => cases same
  | some c, some d =>
    simp only [Condition.toJsonClause, Json.object_cons_inj, and_true] at same
    rw [Condition.toJson_inj c d same]

theorem SelectItem.toJson_inj (i j : SelectItem) (same : i.toJson = j.toJson) : i = j := by
  have alike := SelectItem.ctorIdx_eq same
  match i, j with
  | .concept c modifiers, .concept d modifiers' =>
    simp only [SelectItem.toJson, Json.tagged_inj, Json.object_cons_inj, true_and, and_true] at same
    cases Concept.toJson_inj c d same.1
    cases Json.ofList_injective Modifier.toJson_injective same.2
    rfl
  | .transform call output modifiers, .transform call' output' modifiers' =>
    simp only [SelectItem.toJson, Json.tagged_inj, Json.object_cons_inj, true_and, and_true] at same
    obtain ⟨⟨calls, outputs⟩, lists⟩ := same
    cases Call.toJson_inj call call' calls
    cases Concept.toJson_inj output output' outputs
    cases Json.ofList_injective Modifier.toJson_injective lists
    rfl

theorem SelectItem.toJsonAll_inj (is js : List SelectItem)
    (same : SelectItem.toJsonAll is = SelectItem.toJsonAll js) : is = js := by
  match is, js with
  | [], [] => rfl
  | [], _ :: _ => cases same
  | _ :: _, [] => cases same
  | i :: is, j :: js =>
    obtain ⟨head, tail⟩ := List.cons.inj same
    rw [SelectItem.toJson_inj i j head, SelectItem.toJsonAll_inj is js tail]

theorem Select.toJson_inj (s t : Select) (same : s.toJson = t.toJson) : s = t := by
  match s, t with
  | ⟨selection, condition, orderBy, limit⟩, ⟨selection', condition', orderBy', limit'⟩ =>
    simp only [Select.toJson, Json.object_cons_inj, Json.array.injEq, and_true] at same
    obtain ⟨selections, conditions, orders, limits⟩ := same
    cases SelectItem.toJsonAll_inj selection selection' selections
    cases Condition.toJsonClause_inj condition condition' conditions
    cases OrderItem.toJsonClause_inj orderBy orderBy' orders
    cases Json.ofOption_injective Json.ofNat_injective (by simp [Json.ofNat]) limits
    rfl

theorem Select.toJsonAll_inj (ss ts : List Select)
    (same : Select.toJsonAll ss = Select.toJsonAll ts) : ss = ts := by
  match ss, ts with
  | [], [] => rfl
  | [], _ :: _ => cases same
  | _ :: _, [] => cases same
  | s :: ss, t :: ts =>
    obtain ⟨head, tail⟩ := List.cons.inj same
    rw [Select.toJson_inj s t head, Select.toJsonAll_inj ss ts tail]

theorem AlignItem.toJson_inj (i j : AlignItem) (same : i.toJson = j.toJson) : i = j := by
  match i, j with
  | ⟨name, concepts⟩, ⟨name', concepts'⟩ =>
    simp only [AlignItem.toJson, Json.object_cons_inj, Json.string.injEq, Json.array.injEq,
      and_true] at same
    obtain ⟨rfl, lists⟩ := same
    cases Concept.toJsonAll_inj concepts concepts' lists
    rfl

theorem AlignItem.toJsonAll_inj (is js : List AlignItem)
    (same : AlignItem.toJsonAll is = AlignItem.toJsonAll js) : is = js := by
  match is, js with
  | [], [] => rfl
  | [], _ :: _ => cases same
  | _ :: _, [] => cases same
  | i :: is, j :: js =>
    obtain ⟨head, tail⟩ := List.cons.inj same
    rw [AlignItem.toJson_inj i j head, AlignItem.toJsonAll_inj is js tail]

theorem MultiSelect.toJson_inj (m n : MultiSelect) (same : m.toJson = n.toJson) : m = n := by
  match m, n with
  | ⟨selects, align, ns⟩, ⟨selects', align', ns'⟩ =>
    simp only [MultiSelect.toJson, Json.object_cons_inj, Json.string.injEq, Json.array.injEq,
      and_true] at same
    obtain ⟨lists, aligned, rfl⟩ := same
    cases Select.toJsonAll_inj selects selects' lists
    cases AlignItem.toJsonAll_inj align align' aligned
    rfl

end

end SemanticQuery
