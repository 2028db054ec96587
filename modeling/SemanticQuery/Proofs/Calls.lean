import SemanticQuery.Proofs.Namespaces
import SemanticQuery.Proofs.WrittenAlike

/-!
The calls that are written in a derivation, and the ways in which concepts, calls and conditions are
made. However a concept was made, every call that is reached from it fits its signature.
-/

namespace SemanticQuery

mutual

/-- The calls in an expression, with those in their arguments. What a concept that is read was
derived by is not looked into. -/
def Expr.calls : Expr → List Call
  | .concept _ => []
  | .literal _ => []
  | .call call => call.calls
  | .aggregate aggregate => aggregate.calls
  | .case branches otherwise => Branch.callsAll branches ++ Expr.callsOption otherwise
  | .datatype _ => []
  | .list _ => []

def Expr.callsAll : List Expr → List Call
  | [] => []
  | e :: es => e.calls ++ Expr.callsAll es

def Expr.callsOption : Option Expr → List Call
  | none => []
  | some e => e.calls

def Call.calls : Call → List Call
  | ⟨operator, arguments, datatype, purpose⟩ =>
    ⟨operator, arguments, datatype, purpose⟩ :: Expr.callsAll arguments

def Aggregate.calls : Aggregate → List Call
  | ⟨call, _⟩ => call.calls

def Branch.calls : Branch → List Call
  | ⟨condition, result⟩ => condition.calls ++ result.calls

def Branch.callsAll : List Branch → List Call
  | [] => []
  | b :: bs => b.calls ++ Branch.callsAll bs

def Condition.calls : Condition → List Call
  | .compare left right _ => left.calls ++ right.calls
  | .combine left right _ => left.calls ++ right.calls
  | .parenthesis inner => inner.calls

end

def Lineage.calls : Lineage → List Call
  | .call f => f.calls
  | .window _ => []
  | .filter _ condition => condition.calls
  | .aggregate a => a.calls
  | .multiSelect _ => []

/-- The calls that the derivation of a concept is written with. -/
def Concept.calls (c : Concept) : List Call := (c.lineage.map Lineage.calls).getD []

theorem Call.calls_eq (f : Call) : f.calls = f :: Expr.callsAll f.arguments := by
  cases f
  rw [Call.calls]

theorem Concept.calls_eq {c : Concept} {lineage : Lineage} (derived : c.lineage = some lineage) :
    c.calls = lineage.calls := by
  rw [Concept.calls, derived]
  rfl

section Moved

variable (space : String)

mutual

theorem Expr.calls_withNamespace (e : Expr) :
    (e.withNamespace space).calls = e.calls.map (·.withNamespace space) := by
  cases e with
  | concept c => simp [Expr.withNamespace, Expr.calls]
  | literal l => simp [Expr.withNamespace, Expr.calls]
  | call f => rw [Expr.withNamespace, Expr.calls, Expr.calls, Call.calls_withNamespace f]
  | aggregate a => rw [Expr.withNamespace, Expr.calls, Expr.calls, Aggregate.calls_withNamespace a]
  | case branches otherwise =>
    rw [Expr.withNamespace, Expr.calls, Expr.calls, Branch.callsAll_withNamespace branches,
      Expr.callsOption_withNamespace otherwise, List.map_append]
  | datatype t => simp [Expr.withNamespace, Expr.calls]
  | list items => simp [Expr.withNamespace, Expr.calls]

theorem Expr.callsAll_withNamespace (es : List Expr) :
    Expr.callsAll (Expr.withNamespaceAll space es) =
      (Expr.callsAll es).map (·.withNamespace space) := by
  cases es with
  | nil => simp [Expr.withNamespaceAll, Expr.callsAll]
  | cons e es =>
    rw [Expr.withNamespaceAll, Expr.callsAll, Expr.callsAll, Expr.calls_withNamespace e,
      Expr.callsAll_withNamespace es, List.map_append]

theorem Expr.callsOption_withNamespace (e : Option Expr) :
    Expr.callsOption (Expr.withNamespaceOption space e) =
      (Expr.callsOption e).map (·.withNamespace space) := by
  cases e with
  | none => simp [Expr.withNamespaceOption, Expr.callsOption]
  | some e =>
    rw [Expr.withNamespaceOption, Expr.callsOption, Expr.callsOption, Expr.calls_withNamespace e]

theorem Call.calls_withNamespace (f : Call) :
    (f.withNamespace space).calls = f.calls.map (·.withNamespace space) := by
  obtain ⟨operator, arguments, datatype, purpose⟩ := f
  rw [Call.withNamespace, Call.calls, Call.calls, Expr.callsAll_withNamespace arguments,
    List.map_cons, Call.withNamespace]

theorem Aggregate.calls_withNamespace (a : Aggregate) :
    (a.withNamespace space).calls = a.calls.map (·.withNamespace space) := by
  obtain ⟨call, groupBy⟩ := a
  rw [Aggregate.withNamespace, Aggregate.calls, Aggregate.calls, Call.calls_withNamespace call]

theorem Branch.calls_withNamespace (b : Branch) :
    (b.withNamespace space).calls = b.calls.map (·.withNamespace space) := by
  obtain ⟨condition, result⟩ := b
  rw [Branch.withNamespace, Branch.calls, Branch.calls, Condition.calls_withNamespace condition,
    Expr.calls_withNamespace result, List.map_append]

theorem Branch.callsAll_withNamespace (bs : List Branch) :
    Branch.callsAll (Branch.withNamespaceAll space bs) =
      (Branch.callsAll bs).map (·.withNamespace space) := by
  cases bs with
  | nil => simp [Branch.withNamespaceAll, Branch.callsAll]
  | cons b bs =>
    rw [Branch.withNamespaceAll, Branch.callsAll, Branch.callsAll, Branch.calls_withNamespace b,
      Branch.callsAll_withNamespace bs, List.map_append]

theorem Condition.calls_withNamespace (condition : Condition) :
    (condition.withNamespace space).calls = condition.calls.map (·.withNamespace space) := by
  cases condition with
  | compare left right _ =>
    rw [Condition.withNamespace, Condition.calls, Condition.calls, Expr.calls_withNamespace left,
      Expr.calls_withNamespace right, List.map_append]
  | combine left right _ =>
    rw [Condition.withNamespace, Condition.calls, Condition.calls,
      Condition.calls_withNamespace left, Condition.calls_withNamespace right, List.map_append]
  | parenthesis inner =>
    rw [Condition.withNamespace, Condition.calls, Condition.calls,
      Condition.calls_withNamespace inner]

end

theorem Lineage.calls_withNamespace (lineage : Lineage) :
    (lineage.withNamespace space).calls = lineage.calls.map (·.withNamespace space) := by
  cases lineage with
  | call f => rw [Lineage.withNamespace]; exact Call.calls_withNamespace space f
  | window w => rw [Lineage.withNamespace]; rfl
  | filter content condition =>
    rw [Lineage.withNamespace]; exact Condition.calls_withNamespace space condition
  | aggregate a => rw [Lineage.withNamespace]; exact Aggregate.calls_withNamespace space a
  | multiSelect multi => rw [Lineage.withNamespace]; rfl

theorem Concept.calls_withNamespace (c : Concept) :
    (c.withNamespace space).calls = c.calls.map (·.withNamespace space) := by
  rw [Concept.calls, Concept.lineage_withNamespace, Concept.calls]
  cases c.lineage with
  | none => rfl
  | some lineage => exact Lineage.calls_withNamespace space lineage

theorem Call.Fits.withNamespace {f : Call} (fits : Call.Fits f.operator f.arguments) :
    Call.Fits (f.withNamespace space).operator (f.withNamespace space).arguments := by
  rw [Call.operator_withNamespace, Call.arguments_withNamespace]
  refine fits.congr ?_
  simp

end Moved

namespace Concept

/-- Whether something holds of every concept that is reached from this one. -/
def Throughout (holds : Concept → Prop) (c : Concept) : Prop := ∀ x, c.Reaches x → holds x

variable {holds : Concept → Prop} {c : Concept}

theorem Throughout.here (throughout : c.Throughout holds) : holds c := throughout c (.refl c)

theorem Throughout.of_mem {x : Concept} (throughout : c.Throughout holds)
    (member : x ∈ c.mentions) : x.Throughout holds :=
  fun y reaches => throughout y (.of_mem member reaches)

theorem Throughout.of_mentions (here : holds c) (inside : ∀ x ∈ c.mentions, x.Throughout holds) :
    c.Throughout holds := by
  intro y reaches
  rcases Relation.ReflTransGen.cases_head reaches with rfl | ⟨x, member, reaches⟩
  · exact here
  · exact inside x member y reaches

theorem Throughout.mono {weaker : Concept → Prop} (throughout : c.Throughout holds)
    (weaken : ∀ x, holds x → weaker x) : c.Throughout weaker :=
  fun x reaches => weaken x (throughout x reaches)

theorem mentions_subset (c : Concept) :
    c.mentions ⊆ c.keys ++ (c.lineage.map Lineage.operands).getD [] := by
  rw [mentions]
  split
  · exact List.nil_subset _
  · exact List.Subset.refl _

theorem Throughout.of_parts (here : holds c) (keys : ∀ k ∈ c.keys, k.Throughout holds)
    (operands : ∀ x ∈ (c.lineage.map Lineage.operands).getD [], x.Throughout holds) :
    c.Throughout holds := by
  refine .of_mentions here fun x member => ?_
  rcases List.mem_append.mp (c.mentions_subset member) with key | operand
  · exact keys x key
  · exact operands x operand

theorem Throughout.withKeys {keys : List Concept} (here : holds (c.withKeys keys))
    (throughout : c.Throughout holds) (owners : ∀ k ∈ keys, k.Throughout holds) :
    (c.withKeys keys).Throughout holds := by
  refine .of_mentions here fun x member => ?_
  cases missing : c.isPlaceholder with
  | true => simp [mentions, show (c.withKeys keys).isPlaceholder = true from missing] at member
  | false =>
    rw [mentions_eq (c := c.withKeys keys) missing] at member
    rcases List.mem_append.mp member with key | operand
    · exact owners x key
    · refine throughout.of_mem ?_
      rw [mentions_eq missing]
      exact List.mem_append_right _ operand

/-- Keys stay where they are when a concept moves, and all that it is derived from moves along. -/
theorem Throughout.withNamespace {space : String}
    (moves : ∀ x, holds x → holds (x.withNamespace space)) (throughout : c.Throughout holds) :
    (c.withNamespace space).Throughout holds := by
  intro y reaches
  -- induction on the path, which follows moved concepts up to the first key
  generalize start : c.withNamespace space = moved at reaches
  induction reaches using Relation.ReflTransGen.head_induction_on generalizing c with
  | refl => exact start ▸ moves c throughout.here
  | @head moved next member rest ih =>
    subst start
    cases missing : c.isPlaceholder with
    | true => simp [mentions, missing] at member
    | false =>
      rw [mentions_withNamespace space c missing] at member
      have parts := mentions_eq missing
      rcases List.mem_append.mp member with key | operand
      · refine throughout.of_mem ?_ y rest
        rw [parts]
        exact List.mem_append_left _ key
      · obtain ⟨x, written, rfl⟩ := List.mem_map.mp operand
        refine ih (throughout.of_mem ?_) rfl
        rw [parts]
        exact List.mem_append_right _ written

end Concept

section Pervades

variable {holds : Concept → Prop} {suits : Call → Prop}

/-- Whether something holds of every concept that is reached from those that are read, and something
of every call that is written. -/
def Pervades (holds : Concept → Prop) (suits : Call → Prop) (reads : List Concept)
    (calls : List Call) : Prop :=
  (∀ x ∈ reads, x.Throughout holds) ∧ ∀ f ∈ calls, suits f

namespace Pervades

theorem nil : Pervades holds suits [] [] := ⟨List.forall_mem_nil _, List.forall_mem_nil _⟩

theorem append_iff {reads others : List Concept} {calls more : List Call} :
    Pervades holds suits (reads ++ others) (calls ++ more) ↔
      Pervades holds suits reads calls ∧ Pervades holds suits others more := by
  rw [Pervades, List.forall_mem_append, List.forall_mem_append]
  exact and_and_and_comm

theorem call_iff {f : Call} :
    Pervades holds suits f.reads f.calls ↔
      suits f ∧ Pervades holds suits (Expr.readsAll f.arguments) (Expr.callsAll f.arguments) := by
  rw [Call.reads_eq, Call.calls_eq, Pervades, List.forall_mem_cons]
  exact and_left_comm

theorem all_iff {es : List Expr} :
    Pervades holds suits (Expr.readsAll es) (Expr.callsAll es) ↔
      ∀ e ∈ es, Pervades holds suits e.reads e.calls := by
  induction es with
  | nil =>
    rw [Expr.readsAll, Expr.callsAll]
    exact iff_of_true nil (List.forall_mem_nil _)
  | cons e es ih => rw [Expr.readsAll, Expr.callsAll, append_iff, ih, List.forall_mem_cons]

theorem branches_iff {bs : List Branch} :
    Pervades holds suits (Branch.readsAll bs) (Branch.callsAll bs) ↔
      ∀ b ∈ bs, Pervades holds suits b.condition.reads b.condition.calls ∧
        Pervades holds suits b.result.reads b.result.calls := by
  induction bs with
  | nil =>
    rw [Branch.readsAll, Branch.callsAll]
    exact iff_of_true nil (List.forall_mem_nil _)
  | cons b bs ih =>
    rw [Branch.readsAll, Branch.callsAll, append_iff, ih, List.forall_mem_cons]
    cases b
    rw [Branch.reads, Branch.calls, append_iff]

theorem withNamespace {reads : List Concept} {calls : List Call} {space : String}
    (moves : ∀ x, holds x → holds (x.withNamespace space))
    (also : ∀ f, suits f → suits (f.withNamespace space))
    (pervades : Pervades holds suits reads calls) :
    Pervades holds suits (reads.map (·.withNamespace space))
      (calls.map (·.withNamespace space)) := by
  refine ⟨fun x member => ?_, fun g member => ?_⟩
  · obtain ⟨y, read, rfl⟩ := List.mem_map.mp member
    exact (pervades.1 y read).withNamespace moves
  · obtain ⟨f, written, rfl⟩ := List.mem_map.mp member
    exact also f (pervades.2 f written)

end Pervades

end Pervades

section Made

/-!
How values of each kind are made, from the inside out. The result type of a call may be declared to
be another one.
-/

variable (declares : DataType → Prop)

mutual

inductive Concept.Formed : Concept → Prop
  | declare (name : String) (datatype : DataType) (purpose : Purpose) :
      Concept.Formed (.declare name datatype purpose)
  | placeholder (ns name : String) : Concept.Formed (.placeholder ns name)
  | derive (name : String) (purpose : Purpose) {lineage : Lineage} : Lineage.Formed lineage →
      Concept.Formed (.derive name purpose lineage)
  | merge (item : AlignItem) (multi : MultiSelect) : Concept.Formed (item.mergeConcept multi)
  | withKeys {c : Concept} {keys : List Concept} : Concept.Formed c →
      (∀ k ∈ keys, Concept.Formed k) → Concept.Formed (c.withKeys keys)
  | withGrain {c : Concept} (grain : Grain) : Concept.Formed c → Concept.Formed (c.withGrain grain)
  | withNamespace {c : Concept} (space : String) : Concept.Formed c →
      Concept.Formed (c.withNamespace space)
  | withMetadata {c : Concept} (metadata : Metadata) : Concept.Formed c →
      Concept.Formed (c.withMetadata metadata)

inductive Lineage.Formed : Lineage → Prop
  | call {f : Call} : Call.Formed f → Lineage.Formed (.call f)
  | window {w : Window} : Concept.Formed w.content →
      (∀ item ∈ w.orderBy, Concept.Formed item.concept) → (∀ c ∈ w.partitions, Concept.Formed c) →
      Lineage.Formed (.window w)
  | filter {content : Concept} {condition : Condition} : Concept.Formed content →
      Condition.Formed condition → Lineage.Formed (.filter content condition)
  | aggregate {a : Aggregate} : Aggregate.Formed a → Lineage.Formed (.aggregate a)
  | multiSelect (multi : MultiSelect) : Lineage.Formed (.multiSelect multi)

inductive Call.Formed : Call → Prop
  | of {operator : Operator} {arguments : List Expr} {f : Call} :
      (∀ e ∈ arguments, Expr.Formed e) → Call.of operator arguments = .ok f → Call.Formed f
  | withDatatype {f : Call} {datatype : DataType} : declares datatype → Call.Formed f →
      Call.Formed { f with datatype }
  | withPurpose {f : Call} (purpose : Purpose) : Call.Formed f → Call.Formed { f with purpose }
  | withNamespace {f : Call} (space : String) : Call.Formed f → Call.Formed (f.withNamespace space)

inductive Aggregate.Formed : Aggregate → Prop
  | grouped {call : Call} {groupBy : List Concept} : Call.Formed call →
      (∀ c ∈ groupBy, Concept.Formed c) → Aggregate.Formed ⟨call, groupBy⟩

inductive Expr.Formed : Expr → Prop
  | concept {c : Concept} : Concept.Formed c → Expr.Formed (.concept c)
  | literal (l : Literal) : Expr.Formed (.literal l)
  | call {f : Call} : Call.Formed f → Expr.Formed (.call f)
  | aggregate {a : Aggregate} : Aggregate.Formed a → Expr.Formed (.aggregate a)
  | case {branches : List Branch} {otherwise : Option Expr} :
      (∀ b ∈ branches, Condition.Formed b.condition) → (∀ b ∈ branches, Expr.Formed b.result) →
      (∀ e ∈ otherwise, Expr.Formed e) → Expr.Formed (.case branches otherwise)
  | datatype (t : DataType) : Expr.Formed (.datatype t)
  | list (items : List Literal) : Expr.Formed (.list items)

inductive Condition.Formed : Condition → Prop
  | compare {left right : Expr} (comparator : Comparator) : Expr.Formed left → Expr.Formed right →
      Condition.Formed (.compare left right comparator)
  | combine {left right : Condition} (connective : Connective) : Condition.Formed left →
      Condition.Formed right → Condition.Formed (.combine left right connective)
  | parenthesis {inner : Condition} : Condition.Formed inner → Condition.Formed (.parenthesis inner)

end

/-- A call with arguments that fit, and the result type that follows from them or was declared. -/
structure Call.Regular (f : Call) : Prop where
  fits : Call.Fits f.operator f.arguments
  datatype : f.datatype = resultType f.operator f.arguments ∨ declares f.datatype

/-- A concept with regular calls. Unless it is aligned from selects, it has the type of its
derivation. -/
structure Concept.Regular (c : Concept) : Prop where
  calls : ∀ f ∈ c.calls, f.Regular declares
  datatype : ∀ lineage, c.lineage = some lineage → c.derivation ≠ .multiSelect →
    c.datatype = lineage.datatype

variable {declares}

theorem Call.Regular.withNamespace {f : Call} (regular : f.Regular declares) (space : String) :
    (f.withNamespace space).Regular declares := by
  have types : (f.arguments.map (·.withNamespace space)).map (·.datatype?) =
      f.arguments.map (·.datatype?) := by
    simp
  refine ⟨regular.fits.withNamespace space, ?_⟩
  rw [Call.datatype_withNamespace, Call.operator_withNamespace, Call.arguments_withNamespace,
    Call.resultType_congr types]
  exact regular.datatype

namespace Concept

theorem Regular.withNamespace {c : Concept} (regular : c.Regular declares) (space : String) :
    (c.withNamespace space).Regular declares := by
  refine ⟨fun f member => ?_, fun lineage derived plain => ?_⟩
  · rw [calls_withNamespace] at member
    obtain ⟨g, written, rfl⟩ := List.mem_map.mp member
    exact (regular.calls g written).withNamespace space
  · rw [lineage_withNamespace] at derived
    obtain ⟨old, former, rfl⟩ := Option.map_eq_some_iff.mp derived
    rw [datatype_withNamespace, Lineage.datatype_withNamespace]
    refine regular.datatype old former fun aligned => plain ?_
    obtain ⟨multi, same⟩ := derivation_eq_multiSelect.mp aligned
    refine derivation_eq_multiSelect.mpr ⟨multi, ?_⟩
    rw [lineage_withNamespace, same, Option.map_some, Lineage.withNamespace]

/-- A concept without a derivation has no calls and no type to follow. -/
theorem Regular.of_root {c : Concept} (root : c.lineage = none) : c.Regular declares := by
  refine ⟨?_, fun lineage derived => ?_⟩
  · simp [Concept.calls, root]
  · cases root.symm.trans derived

theorem Regular.congr {c d : Concept} (regular : c.Regular declares)
    (lineage : d.lineage = c.lineage) (datatype : d.datatype = c.datatype) :
    d.Regular declares := by
  refine ⟨?_, fun derivation derived plain => ?_⟩
  · rw [Concept.calls, lineage]
    exact regular.calls
  · rw [datatype]
    refine regular.datatype derivation (lineage ▸ derived) fun aligned => plain ?_
    rwa [derivation_eq_multiSelect, lineage, ← derivation_eq_multiSelect]

theorem Regular.derive {lineage : Lineage} (calls : ∀ f ∈ lineage.calls, f.Regular declares)
    (name : String) (purpose : Purpose) : (derive name purpose lineage).Regular declares := by
  refine ⟨?_, fun derivation derived _ => ?_⟩
  · rwa [calls_eq (c := Concept.derive name purpose lineage) rfl]
  · cases derived
    rfl

/-- The key of a property that is a window is read by the window. -/
theorem derivedKeys_subset (purpose : Purpose) (lineage : Lineage) :
    derivedKeys purpose lineage ⊆ lineage.operands := by
  cases lineage with
  | window w =>
    rw [derivedKeys]
    split
    · simp [Lineage.operands, Lineage.reads, Window.reads]
    · exact List.nil_subset _
  | call _ | filter _ _ | aggregate _ | multiSelect _ => exact List.nil_subset _

theorem Throughout.derive {holds : Concept → Prop} {name : String} {purpose : Purpose}
    {lineage : Lineage} (here : holds (derive name purpose lineage))
    (operands : ∀ x ∈ lineage.operands, x.Throughout holds) :
    (Concept.derive name purpose lineage).Throughout holds :=
  .of_parts here (fun k key => operands k (derivedKeys_subset _ lineage key)) operands

theorem lineage_mergeConcept (item : AlignItem) (multi : MultiSelect) :
    (item.mergeConcept multi).lineage = some (.multiSelect multi) ∧
      (item.mergeConcept multi).keys = [] := by
  unfold AlignItem.mergeConcept
  dsimp only
  split <;> exact ⟨rfl, rfl⟩

theorem Throughout.of_bare {holds : Concept → Prop} {c : Concept} (here : holds c)
    (keys : c.keys = []) (operands : (c.lineage.map Lineage.operands).getD [] = []) :
    c.Throughout holds :=
  .of_parts here (by simp [keys]) (by simp [operands])

end Concept

mutual

/-- Every call that is reached from a concept fits its signature, however the concept was made. -/
theorem Concept.Formed.regular :
    {c : Concept} → c.Formed declares → c.Throughout (·.Regular declares)
  | _, .declare .. => .of_bare (.of_root rfl) rfl rfl
  | _, .placeholder .. => .of_bare (.of_root rfl) rfl rfl
  | _, .derive name purpose made => by
    obtain ⟨operands, calls⟩ := made.regular
    exact .derive (.derive calls name purpose) operands
  | _, .merge item multi => by
    obtain ⟨derived, none⟩ := Concept.lineage_mergeConcept item multi
    refine .of_bare ⟨?_, fun _ _ plain => ?_⟩ none (by rw [derived]; rfl)
    · rw [Concept.calls_eq derived]
      simp [Lineage.calls]
    · exact absurd (Concept.derivation_eq_multiSelect.mpr ⟨multi, derived⟩) plain
  | _, .withKeys made owners => by
    have before := made.regular
    exact .withKeys (before.here.congr rfl rfl) before fun k key => (owners k key).regular
  | _, .withGrain grain made => by
    have before := made.regular
    exact .of_mentions (before.here.congr rfl rfl) fun x member => before.of_mem member
  | _, .withNamespace space made =>
    made.regular.withNamespace fun _ regular => regular.withNamespace space
  | _, .withMetadata metadata made => by
    have before := made.regular
    exact .of_mentions (before.here.congr rfl rfl) fun x member => before.of_mem member

theorem Lineage.Formed.regular :
    {lineage : Lineage} → lineage.Formed declares →
      Pervades (·.Regular declares) (·.Regular declares) lineage.operands lineage.calls
  | _, .call made => made.regular
  | _, .window content ordered partitions => by
    refine ⟨fun x member => ?_, by simp [Lineage.calls]⟩
    rcases List.mem_append.mp member with first | last
    · rcases List.mem_cons.mp first with rfl | partition
      · exact content.regular
      · exact (partitions x partition).regular
    · obtain ⟨item, listed, rfl⟩ := List.mem_map.mp last
      exact (ordered item listed).regular
  | _, .filter content test => by
    obtain ⟨reads, calls⟩ := test.regular
    exact ⟨List.forall_mem_cons.mpr ⟨content.regular, reads⟩, calls⟩
  | _, .aggregate made => made.regular
  | _, .multiSelect _ => .nil

theorem Call.Formed.regular :
    {f : Call} → f.Formed declares →
      Pervades (·.Regular declares) (·.Regular declares) f.reads f.calls
  | _, .of arguments made => by
    obtain ⟨fits, rfl⟩ := Call.of_eq_ok_iff.mp made
    exact Pervades.call_iff.mpr
      ⟨⟨fits, .inl rfl⟩, Pervades.all_iff.mpr fun e member => (arguments e member).regular⟩
  | _, .withDatatype declared made => by
    obtain ⟨own, arguments⟩ := Pervades.call_iff.mp made.regular
    exact Pervades.call_iff.mpr ⟨⟨own.fits, .inr declared⟩, arguments⟩
  | _, .withPurpose purpose made => by
    obtain ⟨own, arguments⟩ := Pervades.call_iff.mp made.regular
    exact Pervades.call_iff.mpr ⟨⟨own.fits, own.datatype⟩, arguments⟩
  | _, .withNamespace space made => by
    rw [Call.reads_withNamespace, Call.calls_withNamespace]
    exact made.regular.withNamespace (fun _ regular => regular.withNamespace space)
      fun _ regular => regular.withNamespace space

theorem Aggregate.Formed.regular :
    {a : Aggregate} → a.Formed declares →
      Pervades (·.Regular declares) (·.Regular declares) a.reads a.calls
  | _, .grouped made groups => by
    rw [Aggregate.reads, Aggregate.calls]
    obtain ⟨reads, calls⟩ := made.regular
    refine ⟨fun x member => ?_, calls⟩
    rcases List.mem_append.mp member with read | group
    · exact reads x read
    · exact (groups x group).regular

theorem Expr.Formed.regular :
    {e : Expr} → e.Formed declares →
      Pervades (·.Regular declares) (·.Regular declares) e.reads e.calls
  | _, .concept made => by
    rw [Expr.reads, Expr.calls]
    exact ⟨by simpa using made.regular, by simp⟩
  | _, .literal l => by
    rw [Expr.reads, Expr.calls]
    exact .nil
  | _, .call made => by
    rw [Expr.reads, Expr.calls]
    exact made.regular
  | _, .aggregate made => by
    rw [Expr.reads, Expr.calls]
    exact made.regular
  | .case _ none, .case conditions results _ => by
    rw [Expr.reads, Expr.calls, Expr.readsOption, Expr.callsOption]
    exact Pervades.append_iff.mpr ⟨Pervades.branches_iff.mpr fun b member =>
      ⟨(conditions b member).regular, (results b member).regular⟩, .nil⟩
  | .case _ (some e), .case conditions results last => by
    rw [Expr.reads, Expr.calls, Expr.readsOption, Expr.callsOption]
    exact Pervades.append_iff.mpr ⟨Pervades.branches_iff.mpr fun b member =>
      ⟨(conditions b member).regular, (results b member).regular⟩, (last e rfl).regular⟩
  | _, .datatype t => by
    rw [Expr.reads, Expr.calls]
    exact .nil
  | _, .list items => by
    rw [Expr.reads, Expr.calls]
    exact .nil

theorem Condition.Formed.regular :
    {condition : Condition} → condition.Formed declares →
      Pervades (·.Regular declares) (·.Regular declares) condition.reads condition.calls
  | _, .compare _ left right => by
    rw [Condition.reads, Condition.calls]
    exact Pervades.append_iff.mpr ⟨left.regular, right.regular⟩
  | _, .combine _ left right => by
    rw [Condition.reads, Condition.calls]
    exact Pervades.append_iff.mpr ⟨left.regular, right.regular⟩
  | _, .parenthesis inner => by
    rw [Condition.reads, Condition.calls]
    exact inner.regular

end

end Made

end SemanticQuery
