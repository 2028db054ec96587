import SemanticQuery.Proofs.ForwardReferences
import SemanticQuery.Proofs.Rebuilding

/-!
Binding where there is nothing to bind. A value without placeholders is bound to itself, except that
a purpose that was declared for a call is forgotten, and that a concept aligned from selects takes
the type of the first alignment if its own is not known.
-/

namespace SemanticQuery

namespace Concept

/-- Neither a placeholder nor at a grain with one. -/
structure Declared (c : Concept) : Prop where
  present : c.isPlaceholder = false
  grain : c.grain.hasPlaceholders = false

/-- Whether the calls and the type of a concept come out the same when they are made anew. -/
structure Unaltered (c : Concept) : Prop where
  calls : ∀ f ∈ c.calls, f.Rebuilt f
  datatype : ∀ lineage, c.lineage = some lineage → c.datatype = .unknown →
    lineage.datatype = .unknown

theorem rebuild_eq_self {c : Concept} (declared : c.Declared)
    (vague : ∀ lineage, c.lineage = some lineage → c.datatype = .unknown →
      lineage.datatype = .unknown) : c.rebuild c.lineage c.keys = c := by
  have whole : c.grain.hasPlaceholders ≠ true := Bool.eq_false_iff.mp declared.grain
  obtain ⟨name, datatype, purpose, metadata, lineage, ns, keys, grain⟩ := c
  unfold rebuild
  dsimp only at whole vague ⊢
  rw [if_neg whole]
  cases lineage with
  | none => rfl
  | some lineage =>
    by_cases unknown : datatype = .unknown
    · subst unknown
      simp only [withGrain, vague lineage rfl rfl]
    · cases datatype with
      | unknown => exact absurd rfl unknown
      | _ => rfl

theorem Unaltered.of_rebind {resolve : Resolver} {c : Concept} (present : c.isPlaceholder = false)
    (same : c.rebind resolve = .ok c) : c.Unaltered := by
  refine ⟨List.forall₂_same.mp (rebuilt_calls present same), fun lineage derived unknown => ?_⟩
  obtain ⟨bound, keys, _, _, rebuilt⟩ := rebind_present present same
  have kept : bound = some lineage := (congrArg Concept.lineage rebuilt).trans derived
  have types := congrArg Concept.datatype rebuilt
  rwa [kept, datatype_rebuild, if_pos unknown, unknown] at types

/-- Where a concept is bound to itself, so is all that it is made of. -/
theorem Throughout.of_rebind {resolve : Resolver} {c : Concept} (declared : c.Throughout Declared)
    (same : c.rebind resolve = .ok c) : c.Throughout Unaltered := by
  intro x reaches
  induction reaches using Relation.ReflTransGen.head_induction_on with
  | refl => exact .of_rebind declared.here.present same
  | @head c y member _ ih =>
    refine ih (declared.of_mem member) ?_
    exact List.map_inj_left.mp (rebinds_mentions declared.here.present same) y member

end Concept

section Unchanged

variable {resolve : Resolver}

/-- Reads and calls that come out the same, with everything that is reached from them. -/
abbrev Unchanged : List Concept → List Call → Prop :=
  Pervades (fun x => x.Declared ∧ x.Unaltered) fun f => f.Rebuilt f

theorem Pervades.of_carries {reads : List Concept} {calls : List Call} {α : Type}
    {written : α → List Concept} {made : α → List Call} {x : Except PlanError α} {a : α}
    (declared : ∀ c ∈ reads, c.Throughout Concept.Declared)
    (carries : Carries resolve reads written x) (remakes : Remakes calls made x) (done : x = .ok a)
    (same : written a = reads) (also : made a = calls) : Unchanged reads calls := by
  have rebinds := carries.ok done
  have rebuilt := remakes.ok done
  rw [same] at rebinds
  rw [also] at rebuilt
  refine ⟨fun c member y reaches => ?_, List.forall₂_same.mp rebuilt⟩
  have fixed : c.rebind resolve = .ok c := List.map_inj_left.mp rebinds c member
  exact ⟨declared c member y reaches, (declared c member).of_rebind fixed y reaches⟩

mutual

theorem Concept.rebind_eq_self (c : Concept)
    (stays : c.Throughout fun x => x.Declared ∧ x.Unaltered) : c.rebind resolve = .ok c := by
  obtain ⟨declared, here⟩ := stays.here
  have mentions := Concept.mentions_eq declared.present
  have rebuilt := Concept.rebuild_eq_self declared here.datatype
  have calls := here.calls
  have present := declared.present
  obtain ⟨name, datatype, purpose, metadata, lineage, ns, keys, grain⟩ := c
  have owners : Concept.rebindAll resolve keys = .ok keys := by
    refine Concept.rebindAll_eq_self keys fun k key => stays.of_mem ?_
    rw [mentions]
    exact List.mem_append_left _ key
  have derivation : Lineage.rebindOption resolve lineage = .ok lineage := by
    refine Lineage.rebindOption_eq_self lineage ⟨fun x operand => stays.of_mem ?_, calls⟩
    rw [mentions]
    exact List.mem_append_right _ operand
  rw [Concept.rebind_eq_ok present derivation owners, rebuilt]

theorem Concept.rebindAll_eq_self (cs : List Concept)
    (stays : ∀ c ∈ cs, c.Throughout fun x => x.Declared ∧ x.Unaltered) :
    Concept.rebindAll resolve cs = .ok cs := by
  cases cs with
  | nil =>
    rw [Concept.rebindAll]
    rfl
  | cons c cs =>
    obtain ⟨first, rest⟩ := List.forall_mem_cons.mp stays
    rw [Concept.rebindAll, Concept.rebind_eq_self c first, Concept.rebindAll_eq_self cs rest]
    rfl

theorem Lineage.rebindOption_eq_self (lineage : Option Lineage)
    (stays : Unchanged ((lineage.map Lineage.operands).getD [])
      ((lineage.map Lineage.calls).getD [])) :
    Lineage.rebindOption resolve lineage = .ok lineage := by
  cases lineage with
  | none =>
    rw [Lineage.rebindOption]
    rfl
  | some lineage =>
    rw [Lineage.rebindOption, Lineage.rebind_eq_self lineage stays]
    rfl

theorem Lineage.rebind_eq_self (lineage : Lineage)
    (stays : Unchanged lineage.operands lineage.calls) : lineage.rebind resolve = .ok lineage := by
  cases lineage with
  | call f =>
    rw [Lineage.rebind, Call.rebind_eq_self f stays]
    rfl
  | window w =>
    rw [Lineage.rebind, Window.rebind_eq_self w stays.1]
    rfl
  | filter content condition =>
    obtain ⟨first, rest⟩ := List.forall_mem_cons.mp stays.1
    rw [Lineage.rebind, Concept.rebind_eq_self content first,
      Condition.rebind_eq_self condition ⟨rest, stays.2⟩]
    rfl
  | aggregate a =>
    rw [Lineage.rebind, Aggregate.rebind_eq_self a stays]
    rfl
  | multiSelect multi =>
    rw [Lineage.rebind]
    rfl

theorem Call.rebind_eq_self (f : Call) (stays : Unchanged f.reads f.calls) :
    f.rebind resolve = .ok f := by
  obtain ⟨rebuilt, inside⟩ := Pervades.call_iff.mp stays
  obtain ⟨operator, arguments, datatype, purpose⟩ := f
  rw [Call.rebind, Expr.rebindAll_eq_self arguments inside]
  exact rebuilt

theorem Aggregate.rebind_eq_self (a : Aggregate) (stays : Unchanged a.reads a.calls) :
    a.rebind resolve = .ok a := by
  obtain ⟨call, groupBy⟩ := a
  rw [Aggregate.reads, Aggregate.calls] at stays
  obtain ⟨reads, groups⟩ := List.forall_mem_append.mp stays.1
  rw [Aggregate.rebind, Call.rebind_eq_self call ⟨reads, stays.2⟩,
    Concept.rebindAll_eq_self groupBy groups]
  rfl

theorem Expr.rebind_eq_self (e : Expr) (stays : Unchanged e.reads e.calls) :
    e.rebind resolve = .ok e := by
  cases e with
  | concept c =>
    rw [Expr.reads] at stays
    rw [Expr.rebind, Concept.rebind_eq_self c (stays.1 c (List.mem_singleton.mpr rfl))]
    rfl
  | literal l =>
    rw [Expr.rebind]
    rfl
  | call f =>
    rw [Expr.reads, Expr.calls] at stays
    rw [Expr.rebind, Call.rebind_eq_self f stays]
    rfl
  | aggregate a =>
    rw [Expr.reads, Expr.calls] at stays
    rw [Expr.rebind, Aggregate.rebind_eq_self a stays]
    rfl
  | case branches otherwise =>
    rw [Expr.reads, Expr.calls] at stays
    obtain ⟨arms, last⟩ := Pervades.append_iff.mp stays
    rw [Expr.rebind, Branch.rebindAll_eq_self branches arms,
      Expr.rebindOption_eq_self otherwise last]
    rfl
  | datatype t =>
    rw [Expr.rebind]
    rfl
  | list items =>
    rw [Expr.rebind]
    rfl

theorem Expr.rebindAll_eq_self (es : List Expr)
    (stays : Unchanged (Expr.readsAll es) (Expr.callsAll es)) :
    Expr.rebindAll resolve es = .ok es := by
  cases es with
  | nil =>
    rw [Expr.rebindAll]
    rfl
  | cons e es =>
    rw [Expr.readsAll, Expr.callsAll] at stays
    obtain ⟨first, rest⟩ := Pervades.append_iff.mp stays
    rw [Expr.rebindAll, Expr.rebind_eq_self e first, Expr.rebindAll_eq_self es rest]
    rfl

theorem Expr.rebindOption_eq_self (e : Option Expr)
    (stays : Unchanged (Expr.readsOption e) (Expr.callsOption e)) :
    Expr.rebindOption resolve e = .ok e := by
  cases e with
  | none =>
    rw [Expr.rebindOption]
    rfl
  | some e =>
    rw [Expr.readsOption, Expr.callsOption] at stays
    rw [Expr.rebindOption, Expr.rebind_eq_self e stays]
    rfl

theorem Branch.rebind_eq_self (b : Branch) (stays : Unchanged b.reads b.calls) :
    b.rebind resolve = .ok b := by
  obtain ⟨condition, result⟩ := b
  rw [Branch.reads, Branch.calls] at stays
  obtain ⟨test, value⟩ := Pervades.append_iff.mp stays
  rw [Branch.rebind, Condition.rebind_eq_self condition test, Expr.rebind_eq_self result value]
  rfl

theorem Branch.rebindAll_eq_self (bs : List Branch)
    (stays : Unchanged (Branch.readsAll bs) (Branch.callsAll bs)) :
    Branch.rebindAll resolve bs = .ok bs := by
  cases bs with
  | nil =>
    rw [Branch.rebindAll]
    rfl
  | cons b bs =>
    rw [Branch.readsAll, Branch.callsAll] at stays
    obtain ⟨first, rest⟩ := Pervades.append_iff.mp stays
    rw [Branch.rebindAll, Branch.rebind_eq_self b first, Branch.rebindAll_eq_self bs rest]
    rfl

theorem Condition.rebind_eq_self (condition : Condition)
    (stays : Unchanged condition.reads condition.calls) :
    condition.rebind resolve = .ok condition := by
  cases condition with
  | compare left right comparator =>
    rw [Condition.reads, Condition.calls] at stays
    obtain ⟨first, second⟩ := Pervades.append_iff.mp stays
    rw [Condition.rebind, Expr.rebind_eq_self left first, Expr.rebind_eq_self right second]
    rfl
  | combine left right connective =>
    rw [Condition.reads, Condition.calls] at stays
    obtain ⟨first, second⟩ := Pervades.append_iff.mp stays
    rw [Condition.rebind, Condition.rebind_eq_self left first,
      Condition.rebind_eq_self right second]
    rfl
  | parenthesis inner =>
    rw [Condition.reads, Condition.calls] at stays
    rw [Condition.rebind, Condition.rebind_eq_self inner stays]
    rfl

theorem Window.rebind_eq_self (w : Window)
    (stays : ∀ c ∈ w.reads, c.Throughout fun x => x.Declared ∧ x.Unaltered) :
    w.rebind resolve = .ok w := by
  obtain ⟨kind, content, orderBy, partitions, index⟩ := w
  obtain ⟨before, ordered⟩ := List.forall_mem_append.mp stays
  obtain ⟨first, others⟩ := List.forall_mem_cons.mp before
  rw [Window.rebind, Concept.rebind_eq_self content first,
    OrderItem.rebindAll_eq_self orderBy ordered, Concept.rebindAll_eq_self partitions others]
  rfl

theorem OrderItem.rebindAll_eq_self (items : List OrderItem)
    (stays : ∀ c ∈ items.map (·.concept), c.Throughout fun x => x.Declared ∧ x.Unaltered) :
    OrderItem.rebindAll resolve items = .ok items := by
  cases items with
  | nil =>
    rw [OrderItem.rebindAll]
    rfl
  | cons item items =>
    obtain ⟨first, rest⟩ := List.forall_mem_cons.mp stays
    rw [OrderItem.rebindAll, OrderItem.rebind_eq_self item first,
      OrderItem.rebindAll_eq_self items rest]
    rfl

theorem OrderItem.rebind_eq_self (item : OrderItem)
    (stays : item.concept.Throughout fun x => x.Declared ∧ x.Unaltered) :
    item.rebind resolve = .ok item := by
  obtain ⟨concept, direction⟩ := item
  rw [OrderItem.rebind, Concept.rebind_eq_self concept stays]
  rfl

end

end Unchanged

/-- Whether a call has the purpose that follows from its arguments. -/
def Call.Natural (f : Call) : Prop := f.purpose = resultPurpose f.operator f.arguments

/-- What a concept needs in order to be bound to itself: calls of natural purpose and, if it is
aligned from selects, a type of its own unless the first alignment has none either. -/
structure Concept.Kept (c : Concept) : Prop where
  calls : ∀ f ∈ c.calls, f.Natural
  aligned : ∀ multi, c.lineage = some (.multiSelect multi) → c.datatype = .unknown →
    (Lineage.multiSelect multi).datatype = .unknown

theorem Call.Regular.rebuilt_iff {f : Call} (regular : f.Regular (· ≠ .unknown)) :
    f.Rebuilt f ↔ f.Natural := by
  rw [Call.rebuilt_self_iff]
  refine ⟨fun rebuilt => rebuilt.2.1, fun natural => ⟨regular.fits, natural, fun unknown => ?_⟩⟩
  rcases regular.datatype with same | known
  · rw [← same, unknown]
  · exact absurd unknown known

theorem Concept.Regular.unaltered_iff {c : Concept} (regular : c.Regular (· ≠ .unknown)) :
    c.Unaltered ↔ c.Kept := by
  have calls : (∀ f ∈ c.calls, f.Rebuilt f) ↔ ∀ f ∈ c.calls, f.Natural :=
    forall₂_congr fun f member => (regular.calls f member).rebuilt_iff
  constructor
  · rintro ⟨rebuilt, types⟩
    exact ⟨calls.mp rebuilt, fun multi => types (.multiSelect multi)⟩
  · rintro ⟨natural, aligned⟩
    refine ⟨calls.mpr natural, fun lineage derived unknown => ?_⟩
    by_cases plain : c.derivation = .multiSelect
    · obtain ⟨multi, same⟩ := derivation_eq_multiSelect.mp plain
      cases derived.symm.trans same
      exact aligned multi derived unknown
    · rw [← regular.datatype lineage derived plain, unknown]

theorem Concept.Throughout.unaltered_iff {c : Concept}
    (regular : c.Throughout (·.Regular (· ≠ .unknown))) (declared : c.Throughout Concept.Declared) :
    (c.Throughout fun x => x.Declared ∧ x.Unaltered) ↔ c.Throughout Concept.Kept := by
  refine forall₂_congr fun x reaches => ?_
  exact (and_iff_right (declared x reaches)).trans (regular x reaches).unaltered_iff

theorem Concept.rebind_eq_self_iff {resolve : Resolver} {c : Concept}
    (regular : c.Throughout (·.Regular (· ≠ .unknown))) (declared : c.Throughout Concept.Declared) :
    c.rebind resolve = .ok c ↔ c.Throughout Concept.Kept := by
  rw [← regular.unaltered_iff declared]
  refine ⟨fun same x reaches => ?_, Concept.rebind_eq_self c⟩
  exact ⟨declared x reaches, declared.of_rebind same x reaches⟩

theorem unchanged_iff {reads : List Concept} {calls : List Call}
    (regular : Pervades (·.Regular (· ≠ .unknown)) (·.Regular (· ≠ .unknown)) reads calls)
    (declared : ∀ c ∈ reads, c.Throughout Concept.Declared) :
    Unchanged reads calls ↔ Pervades Concept.Kept Call.Natural reads calls := by
  refine and_congr (forall₂_congr fun c member => ?_) (forall₂_congr fun f member => ?_)
  · exact (regular.1 c member).unaltered_iff (declared c member)
  · exact (regular.2 f member).rebuilt_iff

/-- Binding leaves a value without placeholders alone, types that were declared for calls included,
exactly if every call has its natural purpose and no aligned concept lacks a type that the first
alignment has. -/
theorem rebind_unchanged_iff (resolve : Resolver) :
    (∀ c : Concept, c.Formed (· ≠ .unknown) → c.Throughout Concept.Declared →
      (c.rebind resolve = .ok c ↔ c.Throughout Concept.Kept)) ∧
    (∀ e : Expr, e.Formed (· ≠ .unknown) → (∀ c ∈ e.reads, c.Throughout Concept.Declared) →
      (e.rebind resolve = .ok e ↔ Pervades Concept.Kept Call.Natural e.reads e.calls)) ∧
    (∀ f : Call, f.Formed (· ≠ .unknown) → (∀ c ∈ f.reads, c.Throughout Concept.Declared) →
      (f.rebind resolve = .ok f ↔ Pervades Concept.Kept Call.Natural f.reads f.calls)) ∧
    (∀ condition : Condition, condition.Formed (· ≠ .unknown) →
      (∀ c ∈ condition.reads, c.Throughout Concept.Declared) →
      (condition.rebind resolve = .ok condition ↔
        Pervades Concept.Kept Call.Natural condition.reads condition.calls)) ∧
    (∀ lineage : Lineage, lineage.Formed (· ≠ .unknown) →
      (∀ c ∈ lineage.operands, c.Throughout Concept.Declared) →
      (lineage.rebind resolve = .ok lineage ↔
        Pervades Concept.Kept Call.Natural lineage.operands lineage.calls)) := by
  refine ⟨fun c formed declared => ?_, fun e formed declared => ?_, fun f formed declared => ?_,
    fun condition formed declared => ?_, fun lineage formed declared => ?_⟩
  · exact Concept.rebind_eq_self_iff formed.regular declared
  all_goals rw [← unchanged_iff formed.regular declared]
  · exact ⟨fun same => .of_carries declared e.carries_rebind e.remakes_rebind same rfl rfl,
      e.rebind_eq_self⟩
  · exact ⟨fun same => .of_carries declared f.carries_rebind f.remakes_rebind same rfl rfl,
      f.rebind_eq_self⟩
  · exact ⟨fun same => .of_carries declared condition.carries_rebind condition.remakes_rebind same
      rfl rfl, condition.rebind_eq_self⟩
  · exact ⟨fun same => .of_carries declared lineage.carries_rebind lineage.remakes_rebind same
      rfl rfl, lineage.rebind_eq_self⟩

/-- Whether a concept is declared, as a check. -/
theorem Concept.declared_of_reachesOnly {c : Concept} (steps : Nat)
    (checked : c.reachesOnly (fun x => !x.isPlaceholder && !x.grain.hasPlaceholders) steps = true) :
    c.Throughout Concept.Declared := by
  intro x reaches
  have both := Concept.of_reachesOnly checked reaches
  simp only [Bool.and_eq_true, Bool.not_eq_true'] at both
  exact ⟨both.1, both.2⟩

namespace Receipts

def receipt : Concept := .key "receipt" .integer

def amount : Concept := .property "amount" .float [receipt]

/-- Of a declared type, where that of the amount would follow. -/
def twice : Call := ⟨.multiply, [.concept amount, .literal (.integer 2)], .number, .property⟩

/-- The amounts that are large when doubled. -/
def large : Concept :=
  .derive "large" .auto (.filter amount (.compare (.call twice) (.literal (.integer 100)) .gt))

theorem formed_amount : amount.Formed (· ≠ .unknown) :=
  .withKeys (.declare "amount" .float .property)
    (List.forall_mem_singleton.mpr (.declare "receipt" .integer .key))

theorem formed_large : large.Formed (· ≠ .unknown) := by
  have number (n : Int) : (Expr.literal (.integer n)).Formed (· ≠ .unknown) := .literal _
  have made : Call.of .multiply [.concept amount, .literal (.integer 2)] =
      .ok ⟨.multiply, [.concept amount, .literal (.integer 2)], .float, .property⟩ := rfl
  have arguments := List.forall_mem_cons.mpr
    ⟨Expr.Formed.concept formed_amount, List.forall_mem_singleton.mpr (number 2)⟩
  have doubled : twice.Formed (· ≠ .unknown) := .withDatatype (by decide) (.of arguments made)
  exact .derive "large" .auto (.filter formed_amount (.compare .gt (.call doubled) (number 100)))

end Receipts

theorem rebind_unchanged_iff_large :
    Receipts.large.Formed (· ≠ .unknown) ∧ Receipts.large.Throughout Concept.Declared ∧
      Receipts.large.Throughout Concept.Kept ∧
      ∀ resolve, Receipts.large.rebind resolve = .ok Receipts.large := by
  have declared : Receipts.large.Throughout Concept.Declared :=
    Concept.declared_of_reachesOnly 4 (by decide +kernel)
  have kept : Receipts.large.Throughout Concept.Kept := by
    intro x reaches
    have checked : Receipts.large.reachesOnly (fun x => x.datatype != .unknown &&
        x.calls.all fun f => f.purpose == Call.resultPurpose f.operator f.arguments) 4 = true := by
      decide +kernel
    have both := Concept.of_reachesOnly checked reaches
    simp only [Bool.and_eq_true, bne_iff_ne, List.all_eq_true, beq_iff_eq] at both
    exact ⟨both.2, fun _ _ unknown => absurd unknown both.1⟩
  refine ⟨Receipts.formed_large, declared, kept, fun resolve => ?_⟩
  exact ((rebind_unchanged_iff resolve).1 _ Receipts.formed_large declared).mpr kept

namespace Receipts

def revenue : Concept := .metric "revenue" .float

/-- Twice a metric, which is a metric unless something else is declared. -/
def double (purpose : Purpose) : Concept :=
  .derive "double" .property
    (.call ⟨.multiply, [.concept revenue, .literal (.integer 2)], .float, purpose⟩)

def note : Concept := .key "note" .unknown

/-- Receipts with receipts, and notes of unknown type with notes. -/
def aligned : MultiSelect :=
  ⟨[⟨[.concept receipt [], .concept note []], none, none, none⟩],
    [⟨"bill", [receipt]⟩, ⟨"remark", [note]⟩], defaultNamespace⟩

def remark : Concept := AlignItem.mergeConcept ⟨"remark", [note]⟩ aligned

end Receipts

/-- A purpose that was declared for a call is forgotten, and the second alignment takes the type of
the first. -/
theorem rebind_changes_bound :
    ((Receipts.double .property).Formed (· ≠ .unknown) ∧
      (Receipts.double .property).Throughout Concept.Declared ∧
      Receipts.double .metric ≠ Receipts.double .property ∧
      ∀ resolve, (Receipts.double .property).rebind resolve = .ok (Receipts.double .metric)) ∧
      Receipts.remark.Formed (· ≠ .unknown) ∧ Receipts.remark.Throughout Concept.Declared ∧
      Receipts.remark.datatype = .unknown ∧
      ∀ resolve, ∃ bound, Receipts.remark.rebind resolve = .ok bound ∧
        bound.datatype = .integer := by
  have made : Call.of .multiply [.concept Receipts.revenue, .literal (.integer 2)] =
      .ok ⟨.multiply, [.concept Receipts.revenue, .literal (.integer 2)], .float, .metric⟩ := rfl
  have arguments : ∀ e ∈ [Expr.concept Receipts.revenue, .literal (.integer 2)],
      e.Formed (· ≠ .unknown) :=
    List.forall_mem_cons.mpr ⟨.concept (.declare "revenue" .float .metric),
      List.forall_mem_singleton.mpr (.literal (.integer 2))⟩
  refine ⟨⟨.derive "double" .property (.call (.withPurpose .property (.of arguments made))),
    Concept.declared_of_reachesOnly 2 (by decide +kernel), fun same => ?_, fun resolve => rfl⟩,
    .merge _ _, Concept.declared_of_reachesOnly 1 (by decide +kernel), rfl,
    fun resolve => ⟨_, rfl, rfl⟩⟩
  cases congrArg Concept.lineage same

end SemanticQuery
