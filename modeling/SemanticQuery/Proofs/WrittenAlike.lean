import Mathlib.Data.List.Forall2
import SemanticQuery.Catalog.Basic
import SemanticQuery.Proofs.Placeholders

/-!
Derivations that are written alike, one over references and the other over the concepts that these
stand for. Binding turns the first into the second: it succeeds, the same concepts are read, and
every type comes out as if it had been known from the start.
-/

namespace SemanticQuery

section Alike

/-!
Derivations that are written alike, except that what is a concept of one may be another concept in
the other.
-/

/-- Whether a call has arguments that fit its operator, and the result type that was declared for
it or else follows from them. -/
def Call.Made (declared : Option DataType) (f : Call) : Prop :=
  ∃ plain, Call.of f.operator f.arguments = .ok plain ∧ f.datatype = declared.getD plain.datatype

variable (leaf : Concept → Concept → Prop)

mutual

inductive Expr.Alike : Expr → Expr → Prop
  | concept {c d : Concept} : leaf c d → Expr.Alike (.concept c) (.concept d)
  | literal (l : Literal) : Expr.Alike (.literal l) (.literal l)
  | call {f g : Call} : Call.Alike f g → Expr.Alike (.call f) (.call g)
  | aggregate {a b : Aggregate} : Aggregate.Alike a b → Expr.Alike (.aggregate a) (.aggregate b)
  | case {branches others : List Branch} {otherwise last : Option Expr} :
      List.Forall₂ Branch.Alike branches others → Option.Rel Expr.Alike otherwise last →
      Expr.Alike (.case branches otherwise) (.case others last)
  | datatype (t : DataType) : Expr.Alike (.datatype t) (.datatype t)
  | list (items : List Literal) : Expr.Alike (.list items) (.list items)

/-- The same result type may be declared for both calls. Their purposes may differ. -/
inductive Call.Alike : Call → Call → Prop
  | applied {f g : Call} {declared : Option DataType} : f.operator = g.operator →
      List.Forall₂ Expr.Alike f.arguments g.arguments → declared ≠ some .unknown →
      f.Made declared → g.Made declared → Call.Alike f g

inductive Aggregate.Alike : Aggregate → Aggregate → Prop
  | grouped {a b : Aggregate} : Call.Alike a.call b.call → List.Forall₂ leaf a.groupBy b.groupBy →
      Aggregate.Alike a b

inductive Branch.Alike : Branch → Branch → Prop
  | arm {a b : Branch} : Condition.Alike a.condition b.condition → Expr.Alike a.result b.result →
      Branch.Alike a b

inductive Condition.Alike : Condition → Condition → Prop
  | compare {left right first second : Expr} (comparator : Comparator) :
      Expr.Alike left first → Expr.Alike right second →
      Condition.Alike (.compare left right comparator) (.compare first second comparator)
  | combine {left right first second : Condition} (connective : Connective) :
      Condition.Alike left first → Condition.Alike right second →
      Condition.Alike (.combine left right connective) (.combine first second connective)
  | parenthesis {inner other : Condition} : Condition.Alike inner other →
      Condition.Alike (.parenthesis inner) (.parenthesis other)

end

structure OrderItem.Alike (item other : OrderItem) : Prop where
  concept : leaf item.concept other.concept
  direction : item.direction = other.direction

structure Window.Alike (w v : Window) : Prop where
  kind : w.kind = v.kind
  content : leaf w.content v.content
  orderBy : List.Forall₂ (OrderItem.Alike leaf) w.orderBy v.orderBy
  partitions : List.Forall₂ leaf w.partitions v.partitions
  index : w.index = v.index

inductive Lineage.Alike : Lineage → Lineage → Prop
  | call {f g : Call} : f.Alike leaf g → Lineage.Alike (.call f) (.call g)
  | window {w v : Window} : w.Alike leaf v → Lineage.Alike (.window w) (.window v)
  | filter {content other : Concept} {condition also : Condition} : leaf content other →
      condition.Alike leaf also → Lineage.Alike (.filter content condition) (.filter other also)
  | aggregate {a b : Aggregate} : a.Alike leaf b → Lineage.Alike (.aggregate a) (.aggregate b)

variable {leaf}

mutual

/-- Where one of two expressions that are written alike reads a concept, the other reads its
counterpart. -/
theorem Expr.reads_of_alike {e d : Expr} (alike : e.Alike leaf d) :
    List.Forall₂ leaf e.reads d.reads := by
  cases e with
  | concept p =>
    cases alike with
    | concept related => simpa [Expr.reads] using related
  | literal l =>
    cases alike
    simp [Expr.reads]
  | call f =>
    cases alike with
    | call alike => simpa [Expr.reads] using Call.reads_of_alike alike
  | aggregate a =>
    cases alike with
    | aggregate alike => simpa [Expr.reads] using Aggregate.reads_of_alike alike
  | case branches otherwise =>
    cases alike with
    | case arms last =>
      rw [Expr.reads, Expr.reads]
      exact List.rel_append (Branch.readsAll_of_alike arms) (Expr.readsOption_of_alike last)
  | datatype t =>
    cases alike
    simp [Expr.reads]
  | list items =>
    cases alike
    simp [Expr.reads]
termination_by structural e

theorem Expr.readsAll_of_alike {es ds : List Expr} (alike : List.Forall₂ (Expr.Alike leaf) es ds) :
    List.Forall₂ leaf (Expr.readsAll es) (Expr.readsAll ds) := by
  cases es with
  | nil =>
    cases alike
    simp [Expr.readsAll]
  | cons e es =>
    cases alike with
    | cons first rest =>
      rw [Expr.readsAll, Expr.readsAll]
      exact List.rel_append (Expr.reads_of_alike first) (Expr.readsAll_of_alike rest)
termination_by structural es

theorem Expr.readsOption_of_alike {e d : Option Expr} (alike : Option.Rel (Expr.Alike leaf) e d) :
    List.Forall₂ leaf (Expr.readsOption e) (Expr.readsOption d) := by
  cases e with
  | none =>
    cases alike
    simp [Expr.readsOption]
  | some e =>
    cases alike with
    | some alike => simpa [Expr.readsOption] using Expr.reads_of_alike alike
termination_by structural e

theorem Call.reads_of_alike {f g : Call} (alike : f.Alike leaf g) :
    List.Forall₂ leaf f.reads g.reads := by
  obtain ⟨operator, arguments, datatype, purpose⟩ := f
  cases alike with
  | applied _ arguments =>
    rw [Call.reads_eq, Call.reads_eq]
    exact Expr.readsAll_of_alike arguments
termination_by structural f

theorem Aggregate.reads_of_alike {a b : Aggregate} (alike : a.Alike leaf b) :
    List.Forall₂ leaf a.reads b.reads := by
  obtain ⟨call, groupBy⟩ := a
  obtain ⟨other, groups⟩ := b
  cases alike with
  | grouped alike groups =>
    rw [Aggregate.reads, Aggregate.reads]
    exact List.rel_append (Call.reads_of_alike alike) groups
termination_by structural a

theorem Branch.reads_of_alike {a b : Branch} (alike : a.Alike leaf b) :
    List.Forall₂ leaf a.reads b.reads := by
  obtain ⟨condition, result⟩ := a
  obtain ⟨other, last⟩ := b
  cases alike with
  | arm condition result =>
    rw [Branch.reads, Branch.reads]
    exact List.rel_append (Condition.reads_of_alike condition) (Expr.reads_of_alike result)
termination_by structural a

theorem Branch.readsAll_of_alike {as bs : List Branch}
    (alike : List.Forall₂ (Branch.Alike leaf) as bs) :
    List.Forall₂ leaf (Branch.readsAll as) (Branch.readsAll bs) := by
  cases as with
  | nil =>
    cases alike
    simp [Branch.readsAll]
  | cons a as =>
    cases alike with
    | cons first rest =>
      rw [Branch.readsAll, Branch.readsAll]
      exact List.rel_append (Branch.reads_of_alike first) (Branch.readsAll_of_alike rest)
termination_by structural as

theorem Condition.reads_of_alike {c d : Condition} (alike : c.Alike leaf d) :
    List.Forall₂ leaf c.reads d.reads := by
  cases c with
  | compare left right comparator =>
    cases alike with
    | compare _ first second =>
      rw [Condition.reads, Condition.reads]
      exact List.rel_append (Expr.reads_of_alike first) (Expr.reads_of_alike second)
  | combine left right connective =>
    cases alike with
    | combine _ first second =>
      rw [Condition.reads, Condition.reads]
      exact List.rel_append (Condition.reads_of_alike first) (Condition.reads_of_alike second)
  | parenthesis inner =>
    cases alike with
    | parenthesis alike => simpa [Condition.reads] using Condition.reads_of_alike alike
termination_by structural c

end

end Alike

namespace Call

/-- Whether arguments fit the signature of an operator. -/
def Fits (operator : Operator) (arguments : List Expr) : Prop :=
  operator.signature.accepts arguments.length = true ∧
    ∀ i argument, arguments[i]? = some argument → misfit? operator i argument = none

theorem of_eq_ok_iff {operator : Operator} {arguments : List Expr} {f : Call} :
    Call.of operator arguments = .ok f ↔
      Fits operator arguments ∧
        f = ⟨operator, arguments, resultType operator arguments,
          resultPurpose operator arguments⟩ := by
  unfold Call.of
  dsimp only
  split
  · next refused =>
    refine iff_of_false nofun ?_
    rintro ⟨⟨accepts, _⟩, _⟩
    simp [accepts] at refused
  · next accepts =>
    split
    · next e first =>
      obtain ⟨part, listed, misfit⟩ := List.mem_filterMap.mp (List.mem_of_mem_head? first)
      refine iff_of_false nofun ?_
      rintro ⟨⟨_, fits⟩, _⟩
      have fit := fits part.2 part.1 (List.mem_zipIdx_iff_getElem?.mp listed)
      cases fit.symm.trans misfit
    · next none =>
      rw [List.head?_eq_none_iff, List.filterMap_eq_nil_iff] at none
      have fits : Fits operator arguments :=
        ⟨by simpa using accepts, fun i argument listed =>
          none (argument, i) (List.mem_zipIdx_iff_getElem?.mpr listed)⟩
      rw [and_iff_right fits, Except.ok.injEq, eq_comm]

theorem misfit?_congr {operator : Operator} {i : Nat} {e d : Expr}
    (same : e.checkedType? = d.checkedType?) (fits : misfit? operator i d = none) :
    misfit? operator i e = none := by
  unfold misfit? at fits ⊢
  rw [same]
  split
  · rfl
  · rfl
  · rfl
  · next allowed type _ _ _ =>
    split
    · rfl
    · simp_all

/-- Whether arguments fit depends on their types only, and so does the type of the result. -/
theorem Fits.congr {operator : Operator} {es ds : List Expr} (fits : Fits operator ds)
    (same : es.map (·.checkedType?) = ds.map (·.checkedType?)) : Fits operator es := by
  have length : es.length = ds.length := by simpa using congrArg List.length same
  refine ⟨length ▸ fits.1, fun i e listed => ?_⟩
  have at_i : (es.map (·.checkedType?))[i]? = (ds.map (·.checkedType?))[i]? := by rw [same]
  rw [List.getElem?_map, List.getElem?_map, listed] at at_i
  obtain ⟨d, found, checked⟩ := Option.map_eq_some_iff.mp at_i.symm
  exact misfit?_congr checked.symm (fits.2 i d found)

theorem resultType_congr {operator : Operator} {es ds : List Expr}
    (same : es.map (·.datatype?) = ds.map (·.datatype?)) :
    resultType operator es = resultType operator ds := by
  have first : es.head?.map (·.datatype?) = ds.head?.map (·.datatype?) := by
    rw [← List.head?_map, ← List.head?_map, same]
  have last : es.getLast?.map (·.datatype?) = ds.getLast?.map (·.datatype?) := by
    rw [← List.getLast?_map, ← List.getLast?_map, same]
  have join (o : Option Expr) : o.bind (·.datatype?) = (o.map (·.datatype?)).join := by
    cases o <;> rfl
  unfold resultType
  rw [join, join, join, join, first, last]

theorem made_iff {declared : Option DataType} {f : Call} :
    f.Made declared ↔ Fits f.operator f.arguments ∧
      f.datatype = declared.getD (resultType f.operator f.arguments) := by
  simp only [Made, of_eq_ok_iff]
  constructor
  · rintro ⟨_, ⟨fits, rfl⟩, same⟩
    exact ⟨fits, same⟩
  · rintro ⟨fits, same⟩
    exact ⟨_, ⟨fits, rfl⟩, same⟩

/-- A call over bound arguments has the type of the one that is made of such arguments in the first
place, provided its own type was the same or not known. -/
theorem exists_rebuild {operator : Operator} {old new : List Expr} {datatype : DataType}
    {purpose : Purpose} {declared : Option DataType} {g : Call} (named : g.operator = operator)
    (known : declared ≠ some .unknown) (made : Made declared ⟨operator, old, datatype, purpose⟩)
    (other : g.Made declared)
    (checked : new.map (·.checkedType?) = g.arguments.map (·.checkedType?))
    (types : new.map (·.datatype?) = g.arguments.map (·.datatype?))
    (vague : resultType operator old = resultType operator g.arguments ∨
      resultType operator old = .unknown) :
    ∃ f, Call.rebuild operator old new datatype = .ok f ∧ f.arguments = new ∧
      f.datatype = g.datatype := by
  subst named
  obtain ⟨fits, own⟩ := made_iff.mp made
  obtain ⟨fitting, theirs⟩ := made_iff.mp other
  have rebuilt := of_eq_ok_iff.mpr ⟨fitting.congr checked, rfl⟩
  have plain := of_eq_ok_iff.mpr ⟨fits, rfl⟩
  dsimp only at own plain
  rw [resultType_congr types] at rebuilt
  unfold Call.rebuild
  rw [rebuilt, plain]
  by_cases unknown : datatype = .unknown
  · refine ⟨_, if_pos (by simp [unknown]), rfl, ?_⟩
    cases declared with
    | none => exact theirs.symm
    | some type => exact absurd (congrArg some (own.symm.trans unknown)) known
  · by_cases same : resultType g.operator old = datatype
    · refine ⟨_, (if_neg (by simp [unknown])).trans (congrArg Except.ok (if_pos (by simp [same]))),
        rfl, ?_⟩
      cases declared with
      | none => exact theirs.symm
      | some type =>
        have named : resultType g.operator old ≠ .unknown := fun vague => unknown (same ▸ vague)
        exact (vague.resolve_right named).symm.trans (same.trans (own.trans theirs.symm))
    · refine ⟨_, (if_neg (by simp [unknown])).trans (congrArg Except.ok (if_neg (by simp [same]))),
        rfl, ?_⟩
      cases declared with
      | none => exact absurd own.symm same
      | some type => exact own.trans theirs.symm

end Call

/-- An expression whose references are still open, and the one that it is meant to be. Its type is
known only if it is the intended one, and is the intended one once the references are bound. -/
structure Expr.Awaits (resolve : Resolver) (e d : Expr) : Prop where
  datatype : e.datatype? = d.datatype? ∨ e.datatype? = some .unknown ∧ e.reads ≠ []
  bound : ∃ b, e.rebind resolve = .ok b ∧ b.datatype? = d.datatype? ∧
    b.checkedType? = d.checkedType?

structure Call.Awaits (resolve : Resolver) (f g : Call) : Prop where
  datatype : f.datatype = g.datatype ∨ f.datatype = .unknown ∧ f.reads ≠ []
  bound : ∃ b, f.rebind resolve = .ok b ∧ b.datatype = g.datatype

structure Branch.Awaits (resolve : Resolver) (a b : Branch) : Prop where
  datatype : a.result.datatype? = b.result.datatype? ∨
    a.result.datatype? = some .unknown ∧ a.reads ≠ []
  bound : ∃ c, a.rebind resolve = .ok c ∧ c.result.datatype? = b.result.datatype?

section Awaits

variable {resolve : Resolver}

theorem Expr.Awaits.all {es ds : List Expr} (awaits : List.Forall₂ (Expr.Awaits resolve) es ds) :
    ∃ bs, Expr.rebindAll resolve es = .ok bs ∧ bs.map (·.datatype?) = ds.map (·.datatype?) ∧
      bs.map (·.checkedType?) = ds.map (·.checkedType?) := by
  induction awaits with
  | nil =>
    rw [Expr.rebindAll]
    exact ⟨[], rfl, rfl, rfl⟩
  | cons first _ ih =>
    obtain ⟨b, done, types, checked⟩ := first.bound
    obtain ⟨bs, rest, others, also⟩ := ih
    refine ⟨b :: bs, ?_, ?_, ?_⟩
    · rw [Expr.rebindAll, done, rest]
      rfl
    · rw [List.map_cons, List.map_cons, types, others]
    · rw [List.map_cons, List.map_cons, checked, also]

theorem Branch.Awaits.all {as bs : List Branch}
    (awaits : List.Forall₂ (Branch.Awaits resolve) as bs) :
    ∃ cs, Branch.rebindAll resolve as = .ok cs ∧
      cs.head?.bind (·.result.datatype?) = bs.head?.bind (·.result.datatype?) := by
  induction awaits with
  | nil =>
    rw [Branch.rebindAll]
    exact ⟨[], rfl, rfl⟩
  | cons first _ ih =>
    obtain ⟨c, done, same⟩ := first.bound
    obtain ⟨cs, rest, _⟩ := ih
    refine ⟨c :: cs, ?_, same⟩
    rw [Branch.rebindAll, done, rest]
    rfl

theorem Expr.readsAll_ne_nil {es : List Expr} {e : Expr} (member : e ∈ es) (reads : e.reads ≠ []) :
    Expr.readsAll es ≠ [] := by
  induction es with
  | nil => cases member
  | cons first rest ih =>
    rw [Expr.readsAll]
    rcases List.mem_cons.mp member with rfl | member
    · simp [reads]
    · simp [ih member]

theorem Expr.Awaits.head {es ds : List Expr} (awaits : List.Forall₂ (Expr.Awaits resolve) es ds) :
    (es.head?.bind (·.datatype?)).getD .unknown = (ds.head?.bind (·.datatype?)).getD .unknown ∨
      (es.head?.bind (·.datatype?)).getD .unknown = .unknown ∧ ∃ e ∈ es, e.reads ≠ [] := by
  cases awaits with
  | nil => exact .inl rfl
  | @cons e d _ _ first _ =>
    rcases first.datatype with same | ⟨unknown, reads⟩
    · exact .inl (by simp [same])
    · exact .inr ⟨by simp [unknown], e, List.mem_cons_self, reads⟩

theorem Call.resultType_awaits (operator : Operator) {es ds : List Expr}
    (awaits : List.Forall₂ (Expr.Awaits resolve) es ds) :
    resultType operator es = resultType operator ds ∨
      resultType operator es = .unknown ∧ Expr.readsAll es ≠ [] := by
  unfold resultType
  cases operator.signature.output with
  | fixed type => exact .inl rfl
  | firstArgument =>
    refine (Expr.Awaits.head awaits).imp_right ?_
    rintro ⟨unknown, e, member, reads⟩
    exact ⟨unknown, Expr.readsAll_ne_nil member reads⟩
  | castTarget =>
    have reversed : List.Forall₂ (Expr.Awaits resolve) es.reverse ds.reverse :=
      List.forall₂_reverse_iff.mpr awaits
    rw [List.getLast?_eq_head?_reverse, List.getLast?_eq_head?_reverse]
    refine (Expr.Awaits.head reversed).imp_right ?_
    rintro ⟨unknown, e, member, reads⟩
    exact ⟨unknown, Expr.readsAll_ne_nil (List.mem_reverse.mp member) reads⟩

/-- A call waits for its arguments only. -/
theorem Call.awaits_of_arguments {operator : Operator} {arguments : List Expr} {datatype : DataType}
    {purpose : Purpose} {g : Call} {declared : Option DataType} (named : operator = g.operator)
    (awaits : List.Forall₂ (Expr.Awaits resolve) arguments g.arguments)
    (known : declared ≠ some .unknown)
    (made : Made declared ⟨operator, arguments, datatype, purpose⟩)
    (other : g.Made declared) :
    Call.Awaits resolve ⟨operator, arguments, datatype, purpose⟩ g := by
  subst named
  have result := Call.resultType_awaits g.operator awaits
  obtain ⟨bound, done, types, checked⟩ := Expr.Awaits.all awaits
  obtain ⟨f, rebuilt, _, same⟩ :=
    Call.exists_rebuild rfl known made other checked types (result.imp_right And.left)
  refine ⟨?_, f, ?_, same⟩
  · have own := (made_iff.mp made).2
    have theirs := (made_iff.mp other).2
    dsimp only at own
    rw [Call.reads, own, theirs]
    cases declared with
    | none => exact result
    | some type => exact .inl rfl
  · rw [Call.rebind, done]
    exact rebuilt

theorem Branch.Awaits.head {as bs : List Branch}
    (awaits : List.Forall₂ (Branch.Awaits resolve) as bs) :
    as.head?.bind (·.result.datatype?) = bs.head?.bind (·.result.datatype?) ∨
      as.head?.bind (·.result.datatype?) = some .unknown ∧ Branch.readsAll as ≠ [] := by
  cases awaits with
  | nil => exact .inl rfl
  | cons first _ =>
    refine first.datatype.imp_right fun vague => ⟨vague.1, ?_⟩
    rw [Branch.readsAll]
    exact List.append_ne_nil_of_left_ne_nil vague.2 _

theorem Expr.datatype?_case (branches : List Branch) (otherwise : Option Expr) :
    (Expr.case branches otherwise).datatype? = branches.head?.bind (·.result.datatype?) := by
  cases branches with
  | nil => rfl
  | cons branch _ =>
    cases branch
    rfl

end Awaits

/-- A concept in which nothing is left open, and that does not come from aligned selects. -/
structure Concept.Complete (c : Concept) : Prop where
  bound : c.hasPlaceholders = false
  unaligned : c.Unaligned

/-- A reference, and the declaration that it stands for. -/
structure NameMap.Declares (concepts : NameMap Concept) (p c : Concept) : Prop where
  reference : ∃ ns name, p = .placeholder ns name
  found : concepts.resolve p.address = .ok c
  complete : c.Complete

section Declares

variable {concepts : NameMap Concept}

theorem NameMap.Declares.isPlaceholder {p c : Concept} (declares : concepts.Declares p c) :
    p.isPlaceholder = true := by
  obtain ⟨ns, name, rfl⟩ := declares.reference
  rfl

theorem NameMap.Declares.datatype {p c : Concept} (declares : concepts.Declares p c) :
    p.datatype = .unknown := by
  obtain ⟨ns, name, rfl⟩ := declares.reference
  rfl

theorem NameMap.Declares.rebind {p c : Concept} (declares : concepts.Declares p c) :
    p.rebind concepts.resolve = .ok c := by
  rw [Concept.rebind_placeholder declares.isPlaceholder, declares.found]

theorem NameMap.Declares.rebindAll {ps cs : List Concept}
    (declares : List.Forall₂ concepts.Declares ps cs) :
    Concept.rebindAll concepts.resolve ps = .ok cs := by
  induction declares with
  | nil =>
    rw [Concept.rebindAll]
    rfl
  | cons first _ ih =>
    rw [Concept.rebindAll, first.rebind, ih]
    rfl

theorem NameMap.Declares.complete_of_mem {ps cs : List Concept}
    (declares : List.Forall₂ concepts.Declares ps cs) : ∀ c ∈ cs, c.Complete := by
  induction declares with
  | nil => exact fun c member => absurd member List.not_mem_nil
  | cons first _ ih => exact List.forall_mem_cons.mpr ⟨first.complete, ih⟩

theorem NameMap.Declares.exists_of_mem {ps cs : List Concept}
    (declares : List.Forall₂ concepts.Declares ps cs) :
    ∀ p ∈ ps, ∃ c ∈ cs, concepts.Declares p c := by
  induction declares with
  | nil => exact fun p member => absurd member List.not_mem_nil
  | cons first _ ih =>
    refine List.forall_mem_cons.mpr ⟨⟨_, List.mem_cons_self, first⟩, fun p member => ?_⟩
    obtain ⟨c, listed, own⟩ := ih p member
    exact ⟨c, List.mem_cons_of_mem _ listed, own⟩

theorem NameMap.Declares.reference_of_mem {ps cs : List Concept}
    (declares : List.Forall₂ concepts.Declares ps cs) :
    ∀ p ∈ ps, ∃ ns name, p = .placeholder ns name := by
  intro p member
  obtain ⟨c, _, own⟩ := exists_of_mem declares p member
  exact own.reference

mutual

/-- What is written over references becomes what is written alike over their declarations. -/
theorem Expr.awaits_of_alike {e d : Expr} (alike : e.Alike concepts.Declares d) :
    e.Awaits concepts.resolve d := by
  cases e with
  | concept p =>
    cases alike with
    | concept declares =>
      refine ⟨.inr ⟨congrArg some declares.datatype, by simp [Expr.reads]⟩, _, ?_, rfl, rfl⟩
      rw [Expr.rebind, declares.rebind]
      rfl
  | literal l =>
    cases alike
    refine ⟨.inl rfl, _, ?_, rfl, rfl⟩
    rw [Expr.rebind]
    rfl
  | call f =>
    cases alike with
    | call alike =>
      obtain ⟨datatype, b, done, same⟩ := Call.awaits_of_alike alike
      refine ⟨datatype.imp (congrArg some) fun vague => ⟨congrArg some vague.1, ?_⟩, .call b, ?_,
        congrArg some same, congrArg some same⟩
      · rw [Expr.reads]
        exact vague.2
      · rw [Expr.rebind, done]
        rfl
  | aggregate a =>
    cases alike with
    | @aggregate _ other alike =>
      obtain ⟨datatype, b, done, same⟩ := Aggregate.awaits_of_alike alike
      refine ⟨datatype.imp (congrArg some) fun vague => ⟨congrArg some vague.1, ?_⟩,
        .aggregate ⟨b, other.groupBy⟩, ?_, congrArg some same, congrArg some same⟩
      · rw [Expr.reads]
        exact vague.2
      · rw [Expr.rebind, done]
        rfl
  | case branches otherwise =>
    cases alike with
    | @case _ others _ last arms rest =>
      have awaits := Branch.awaitsAll_of_alike arms
      obtain ⟨bound, done, types⟩ := Branch.Awaits.all awaits
      obtain ⟨after, finished⟩ := Expr.exists_rebindOption rest
      refine ⟨?_, .case bound after, ?_, ?_, rfl⟩
      · rw [Expr.datatype?_case, Expr.datatype?_case, Expr.reads]
        refine (Branch.Awaits.head awaits).imp_right fun vague => ⟨vague.1, ?_⟩
        exact List.append_ne_nil_of_left_ne_nil vague.2 _
      · rw [Expr.rebind, done, finished]
        rfl
      · rw [Expr.datatype?_case, Expr.datatype?_case, types]
  | datatype t =>
    cases alike
    refine ⟨.inl rfl, _, ?_, rfl, rfl⟩
    rw [Expr.rebind]
    rfl
  | list items =>
    cases alike
    refine ⟨.inl rfl, _, ?_, rfl, rfl⟩
    rw [Expr.rebind]
    rfl
termination_by structural e

theorem Expr.awaitsAll_of_alike {es ds : List Expr}
    (alike : List.Forall₂ (Expr.Alike concepts.Declares) es ds) :
    List.Forall₂ (Expr.Awaits concepts.resolve) es ds := by
  cases es with
  | nil =>
    cases alike
    exact .nil
  | cons e es =>
    cases alike with
    | cons first rest =>
      exact .cons (Expr.awaits_of_alike first) (Expr.awaitsAll_of_alike rest)
termination_by structural es

theorem Expr.exists_rebindOption {e d : Option Expr}
    (alike : Option.Rel (Expr.Alike concepts.Declares) e d) :
    ∃ b, Expr.rebindOption concepts.resolve e = .ok b := by
  cases e with
  | none =>
    rw [Expr.rebindOption]
    exact ⟨none, rfl⟩
  | some e =>
    cases alike with
    | some alike =>
      obtain ⟨b, done, _⟩ := (Expr.awaits_of_alike alike).bound
      rw [Expr.rebindOption, done]
      exact ⟨some b, rfl⟩
termination_by structural e

theorem Call.awaits_of_alike {f g : Call} (alike : f.Alike concepts.Declares g) :
    f.Awaits concepts.resolve g := by
  obtain ⟨operator, arguments, datatype, purpose⟩ := f
  cases alike with
  | @applied _ _ declared named alike known made other =>
    have awaits := Expr.awaitsAll_of_alike alike
    exact Call.awaits_of_arguments named awaits known made other
termination_by structural f

theorem Aggregate.awaits_of_alike {a b : Aggregate} (alike : a.Alike concepts.Declares b) :
    (a.call.datatype = b.call.datatype ∨ a.call.datatype = .unknown ∧ a.reads ≠ []) ∧
      ∃ f, a.rebind concepts.resolve = .ok ⟨f, b.groupBy⟩ ∧ f.datatype = b.call.datatype := by
  obtain ⟨call, groupBy⟩ := a
  cases alike with
  | grouped alike groups =>
    obtain ⟨datatype, f, done, same⟩ := Call.awaits_of_alike alike
    refine ⟨datatype.imp_right fun vague => ⟨vague.1, ?_⟩, f, ?_, same⟩
    · rw [Aggregate.reads]
      exact List.append_ne_nil_of_left_ne_nil vague.2 _
    · rw [Aggregate.rebind, done, NameMap.Declares.rebindAll groups]
      rfl
termination_by structural a

theorem Branch.awaits_of_alike {a b : Branch} (alike : a.Alike concepts.Declares b) :
    a.Awaits concepts.resolve b := by
  obtain ⟨condition, result⟩ := a
  cases alike with
  | arm condition result =>
    obtain ⟨datatype, c, done, same, _⟩ := Expr.awaits_of_alike result
    obtain ⟨guard, held⟩ := Condition.exists_rebind condition
    refine ⟨datatype.imp_right fun vague => ⟨vague.1, ?_⟩, ⟨guard, c⟩, ?_, same⟩
    · rw [Branch.reads]
      exact List.append_ne_nil_of_right_ne_nil _ vague.2
    · rw [Branch.rebind, held, done]
      rfl
termination_by structural a

theorem Branch.awaitsAll_of_alike {as bs : List Branch}
    (alike : List.Forall₂ (Branch.Alike concepts.Declares) as bs) :
    List.Forall₂ (Branch.Awaits concepts.resolve) as bs := by
  cases as with
  | nil =>
    cases alike
    exact .nil
  | cons a as =>
    cases alike with
    | cons first rest =>
      exact .cons (Branch.awaits_of_alike first) (Branch.awaitsAll_of_alike rest)
termination_by structural as

theorem Condition.exists_rebind {c d : Condition} (alike : c.Alike concepts.Declares d) :
    ∃ b, c.rebind concepts.resolve = .ok b := by
  cases c with
  | compare left right comparator =>
    cases alike with
    | compare _ first second =>
      obtain ⟨b, done, _⟩ := (Expr.awaits_of_alike first).bound
      obtain ⟨c, also, _⟩ := (Expr.awaits_of_alike second).bound
      rw [Condition.rebind, done, also]
      exact ⟨_, rfl⟩
  | combine left right connective =>
    cases alike with
    | combine _ first second =>
      obtain ⟨b, done⟩ := Condition.exists_rebind first
      obtain ⟨c, also⟩ := Condition.exists_rebind second
      rw [Condition.rebind, done, also]
      exact ⟨_, rfl⟩
  | parenthesis inner =>
    cases alike with
    | parenthesis alike =>
      obtain ⟨b, done⟩ := Condition.exists_rebind alike
      rw [Condition.rebind, done]
      exact ⟨_, rfl⟩
termination_by structural c

end

theorem OrderItem.rebindAll_of_alike {items others : List OrderItem}
    (alike : List.Forall₂ (OrderItem.Alike concepts.Declares) items others) :
    OrderItem.rebindAll concepts.resolve items = .ok others := by
  induction alike with
  | nil =>
    rw [OrderItem.rebindAll]
    rfl
  | @cons item other _ _ first _ ih =>
    obtain ⟨concept, direction⟩ := item
    obtain ⟨found, also⟩ := other
    obtain ⟨declares, rfl⟩ := first
    rw [OrderItem.rebindAll, OrderItem.rebind, declares.rebind, ih]
    rfl

theorem Window.rebind_of_alike {w v : Window} (alike : w.Alike concepts.Declares v) :
    w.rebind concepts.resolve = .ok v := by
  obtain ⟨kind, content, orderBy, partitions, index⟩ := w
  obtain ⟨otherKind, other, order, others, otherIndex⟩ := v
  obtain ⟨rfl, declares, items, groups, rfl⟩ := alike
  rw [Window.rebind, declares.rebind, OrderItem.rebindAll_of_alike items,
    NameMap.Declares.rebindAll groups]
  rfl

/-- References are bound to what they stand for. -/
theorem Rebinds.eq_of_declares {ps bound cs : List Concept}
    (rebinds : Rebinds concepts.resolve ps bound)
    (declares : List.Forall₂ concepts.Declares ps cs) : bound = cs := by
  induction declares generalizing bound with
  | nil =>
    have none : [] = bound.map Except.ok := rebinds
    simpa using none.symm
  | @cons p c ps cs first _ ih =>
    cases bound with
    | nil => cases rebinds
    | cons b bound =>
      obtain ⟨own, rest⟩ := List.cons.inj rebinds
      have same : c = b := Except.ok.inj (first.rebind.symm.trans own)
      rw [same, ih rest]

/-- The concepts that a derivation is grouped by. -/
def Lineage.groups : Lineage → List Concept
  | .aggregate a => a.groupBy
  | _ => []

/-- What a derivation over references is bound to. Only the purposes of its calls may not be those
of the derivation that is written alike over the declarations. -/
structure Lineage.Resembles (bound inOrder : Lineage) : Prop where
  plain : ∀ multi, bound ≠ .multiSelect multi
  operands : bound.operands = inOrder.operands
  reads : bound.reads = inOrder.reads
  groups : bound.groups = inOrder.groups
  datatype : bound.datatype = inOrder.datatype

theorem Lineage.exists_rebind {forward inOrder : Lineage}
    (alike : forward.Alike concepts.Declares inOrder) :
    ∃ bound, forward.rebind concepts.resolve = .ok bound ∧ bound.Resembles inOrder := by
  cases alike with
  | @call f g alike =>
    obtain ⟨b, done, same⟩ := (Call.awaits_of_alike alike).bound
    have reads : b.reads = g.reads :=
      Rebinds.eq_of_declares ((Call.carries_rebind f).ok done) (Call.reads_of_alike alike)
    refine ⟨.call b, ?_, by rintro _ ⟨⟩, reads, reads, rfl, same⟩
    rw [Lineage.rebind, done]
    rfl
  | @window w v alike =>
    refine ⟨.window v, ?_, by rintro _ ⟨⟩, rfl, rfl, rfl, rfl⟩
    rw [Lineage.rebind, Window.rebind_of_alike alike]
    rfl
  | @filter content other condition also declares alike =>
    obtain ⟨b, done⟩ := Condition.exists_rebind alike
    have reads : b.reads = also.reads :=
      Rebinds.eq_of_declares ((Condition.carries_rebind condition).ok done)
        (Condition.reads_of_alike alike)
    refine ⟨.filter other b, ?_, by rintro _ ⟨⟩, ?_, ?_, rfl, rfl⟩
    · rw [Lineage.rebind, declares.rebind, done]
      rfl
    · rw [Lineage.operands, Lineage.operands, reads]
    · rw [Lineage.reads, Lineage.reads, reads]
  | @aggregate a b alike =>
    obtain ⟨_, f, done, same⟩ := Aggregate.awaits_of_alike alike
    have reads : Aggregate.reads ⟨f, b.groupBy⟩ = b.reads :=
      Rebinds.eq_of_declares ((Aggregate.carries_rebind a).ok done) (Aggregate.reads_of_alike alike)
    refine ⟨.aggregate ⟨f, b.groupBy⟩, ?_, by rintro _ ⟨⟩, reads, reads, rfl, same⟩
    rw [Lineage.rebind, done]
    rfl

theorem Lineage.operands_of_alike {forward inOrder : Lineage}
    (alike : forward.Alike concepts.Declares inOrder) :
    List.Forall₂ concepts.Declares forward.operands inOrder.operands := by
  cases alike with
  | call alike => exact Call.reads_of_alike alike
  | window alike =>
    have ordered := alike.orderBy.imp fun item other same => same.concept
    refine .cons alike.content (List.rel_append alike.partitions ?_)
    simpa using ordered
  | filter declares alike => exact .cons declares (Condition.reads_of_alike alike)
  | aggregate alike => exact Aggregate.reads_of_alike alike

/-- What is read in a derivation over references are references. -/
theorem Lineage.reference_of_mem_reads {forward inOrder : Lineage}
    (alike : forward.Alike concepts.Declares inOrder) :
    ∀ p ∈ forward.reads, ∃ ns name, p = .placeholder ns name := by
  intro p read
  refine NameMap.Declares.reference_of_mem (Lineage.operands_of_alike alike) p ?_
  cases alike with
  | filter =>
    rcases List.mem_cons.mp read with rfl | read
    · exact List.mem_cons_self
    · exact List.mem_cons_of_mem _ (Concept.mem_of_mem_unique read)
  | call | window | aggregate => exact read

theorem Lineage.groups_of_alike {forward inOrder : Lineage}
    (alike : forward.Alike concepts.Declares inOrder) :
    List.Forall₂ concepts.Declares forward.groups inOrder.groups := by
  cases alike with
  | aggregate alike =>
    cases alike with
    | grouped _ groups => exact groups
  | call | window | filter => exact .nil

theorem Lineage.datatype_of_alike {forward inOrder : Lineage}
    (alike : forward.Alike concepts.Declares inOrder) :
    forward.datatype = inOrder.datatype ∨
      forward.datatype = .unknown ∧ forward.reads ≠ [] := by
  cases alike with
  | call alike => exact (Call.awaits_of_alike alike).datatype
  | window alike =>
    unfold Lineage.datatype
    dsimp only
    rw [alike.kind]
    split
    · exact .inl rfl
    · exact .inl rfl
    · exact .inr ⟨alike.content.datatype, List.cons_ne_nil _ _⟩
    · exact .inr ⟨alike.content.datatype, List.cons_ne_nil _ _⟩
  | filter declares alike => exact .inr ⟨declares.datatype, List.cons_ne_nil _ _⟩
  | aggregate alike => exact (Aggregate.awaits_of_alike alike).1

end Declares

end SemanticQuery
