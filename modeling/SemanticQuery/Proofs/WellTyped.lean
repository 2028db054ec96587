import SemanticQuery.Proofs.Assembly
import SemanticQuery.Proofs.Binding
import SemanticQuery.Proofs.Rebuilding

/-!
Calls over references are made before the types of their arguments are known. Binding checks them
again, in every pass, so that all calls in a catalog satisfy their signatures.
-/

namespace SemanticQuery

/-- Whether a call satisfies the signature of its operator. An argument passes if its type is not
known. -/
structure Call.WellTyped (f : Call) : Prop where
  least : f.operator.signature.least ≤ f.arguments.length
  most : ∀ most, f.operator.signature.most = some most → f.arguments.length ≤ most
  types : ∀ (position : Nat) (argument : Expr) (allowed : List DataType) (type : DataType),
    f.arguments[position]? = some argument →
    f.operator.signature.inputs.allowed position = some allowed →
    argument.checkedType? = some type → type = .unknown ∨ type ∈ allowed

theorem Call.Fits.wellTyped {f : Call} (fits : Call.Fits f.operator f.arguments) :
    f.WellTyped := by
  obtain ⟨accepted, matching⟩ := fits
  obtain ⟨least, most⟩ := Bool.and_eq_true_iff.mp accepted
  refine ⟨of_decide_eq_true least, fun bound given => ?_, ?_⟩
  · rw [given] at most
    exact of_decide_eq_true most
  · intro position argument allowed type listed checked known
    have fit := matching position argument listed
    unfold misfit? at fit
    rw [checked, known] at fit
    by_cases unknown : type = .unknown
    · exact .inl unknown
    · refine .inr ?_
      by_contra refused
      simp [refused] at fit

/-- Whether every call in the derivation of a concept fits its signature. -/
def Concept.CallsFit (c : Concept) : Prop := ∀ f ∈ c.calls, Call.Fits f.operator f.arguments

/-- Nothing need be known of the calls before: those of a bound concept are made anew. -/
theorem Concept.callsFit_rebind {resolve : Resolver} {c bound : Concept}
    (present : c.isPlaceholder = false) (done : c.rebind resolve = .ok bound) : bound.CallsFit :=
  Call.Rebuilt.forall_fits (Concept.rebuilt_calls present done)

section Parts

variable {c : Concept}

theorem Concept.CallsFit.withNamespace (fit : c.CallsFit) (space : String) :
    (c.withNamespace space).CallsFit := by
  intro f member
  rw [Concept.calls_withNamespace] at member
  obtain ⟨g, written, rfl⟩ := List.mem_map.mp member
  exact (fit g written).withNamespace space

/-- A calendar part is derived by a single call, of the concept that it is a part of. -/
theorem DateParts.callsFit_part {operator : Operator} {part : Concept}
    (done : DateParts.part c operator = .ok part) (fit : c.Throughout (·.CallsFit)) :
    part.Throughout (·.CallsFit) := by
  obtain ⟨call, made, done⟩ := bind_eq_ok.mp done
  obtain ⟨fits, rfl⟩ := Call.of_eq_ok_iff.mp made
  dsimp only at done
  generalize (if c.purpose == .constant then Purpose.constant else .property) = purpose at done
  have derived : (Concept.derive (c.name ++ "." ++ operator.name) purpose
      (.call ⟨operator, [.concept c], Call.resultType operator [.concept c], purpose⟩)).Throughout
        (·.CallsFit) := by
    refine .derive (fun f member => ?_) fun x member => ?_
    · simp only [Concept.calls_eq (c := Concept.derive _ _ _) rfl, Lineage.calls, Call.calls,
        Expr.callsAll, Expr.calls, List.append_nil, List.mem_singleton] at member
      rw [member]
      exact fits
    · simp only [Lineage.operands, Lineage.reads, Call.reads, Expr.readsAll, Expr.reads,
        List.append_nil, List.mem_singleton] at member
      rw [member]
      exact fit
  have moved := derived.withNamespace fun x fit => fit.withNamespace c.ns
  have owned := moved.withKeys moved.here (List.forall_mem_singleton.mpr fit)
  cases done
  exact .of_mentions owned.here fun x member => owned.of_mem member

end Parts

namespace NameMap

/-- Whether every call that is reached from an entry fits its signature. -/
def CallsFit (concepts : NameMap Concept) : Prop :=
  ∀ key c, concepts.get? key = some c → c.Throughout (·.CallsFit)

theorem get?_insertIfNew_cases {m : NameMap α} {key name : String} {value other : α}
    (held : (m.insertIfNew name other).get? key = some value) :
    m.get? key = some value ∨ value = other := by
  unfold insertIfNew at held
  split at held
  · exact .inl held
  · rw [get?_insert] at held
    split at held
    · cases held
      exact .inr rfl
    · exact .inl held

theorem CallsFit.insertIfNew {concepts : NameMap Concept} (fit : concepts.CallsFit) {c : Concept}
    (also : c.Throughout (·.CallsFit)) (name : String) :
    (concepts.insertIfNew name c).CallsFit := by
  intro key x held
  rcases get?_insertIfNew_cases held with before | rfl
  · exact fit key x before
  · exact also

theorem CallsFit.foldl_insertIfNew {concepts : NameMap Concept} (fit : concepts.CallsFit)
    {cs : List Concept} (also : ∀ c ∈ cs, c.Throughout (·.CallsFit)) :
    (cs.foldl (fun m c => m.insertIfNew c.address c) concepts).CallsFit := by
  induction cs generalizing concepts with
  | nil => exact fit
  | cons c cs ih =>
    obtain ⟨first, rest⟩ := List.forall_mem_cons.mp also
    exact ih (fit.insertIfNew first c.address) rest

end NameMap

namespace Builder

variable {concepts next bound : NameMap Concept}

theorem callsFit_bindOnce (fit : concepts.CallsFit) (done : bindOnce concepts = .ok next) :
    next.CallsFit := by
  intro key c made y reaches
  rcases reaches_bindOnce done made reaches with
    ⟨_, held⟩ | ⟨target, e, _, held, within⟩ | ⟨_, x, _, _, present, rebound⟩
  · exact fit key c held y reaches
  · exact fit target e held y within
  · exact x.callsFit_rebind present rebound

theorem callsFit_addDateParts (fit : bound.CallsFit) (done : addDateParts bound = .ok concepts) :
    concepts.CallsFit := by
  obtain ⟨parts, made, done⟩ := bind_eq_ok.mp done
  cases done
  refine fit.foldl_insertIfNew fun part member => ?_
  obtain ⟨group, listed, member⟩ := List.mem_flatten.mp member
  obtain ⟨c, temporal, grouped⟩ := exists_of_mem_mapM made listed
  obtain ⟨operator, _, derived⟩ := exists_of_mem_mapM grouped member
  obtain ⟨entry, held, rfl⟩ := List.mem_map.mp (List.mem_filter.mp temporal).1
  exact DateParts.callsFit_part derived (fit entry.1 entry.2 (NameMap.mem_entries_iff.mp held))

/-- Every call that is reached from a concept of a catalog satisfies its signature, whatever was
referred to before it was declared and whatever types were declared for results. -/
theorem build_wellTyped {b : Builder} {catalog : Catalog}
    (formed : ∀ key c, b.concepts.get? key = some c → c.Formed fun _ => True)
    (built : b.build = .ok catalog) {key : String} {c x : Concept} {f : Call}
    (held : catalog.concepts.get? key = some c) (reaches : c.Reaches x) (member : f ∈ x.calls) :
    f.WellTyped := by
  have start : b.concepts.CallsFit := fun key c held =>
    (formed key c held).regular.mono fun x regular f member => (regular.calls f member).fits
  obtain ⟨bound, concepts, datasources, binding, dated, _, rfl⟩ := build_cases built
  have fit : bound.CallsFit :=
    bindWithin_keeps NameMap.CallsFit (fun _ _ => callsFit_bindOnce) start binding
  have all : concepts.CallsFit := by
    rcases dated with dated | rfl
    · exact callsFit_addDateParts fit dated
    · exact fit
  exact (all key c held x reaches f member).wellTyped

end Builder

namespace Bills

/-- Declared before the total that it rounds, with a result type of its own. -/
def rounded : Concept :=
  .derive "rounded" .auto
    (.call ⟨.round, [.concept (.placeholder "local" "total"), .literal (.integer 2)], .number,
      .property⟩)

def builder : Builder :=
  { concepts := .ofList ([rounded, total, amount, bill].map fun c => (c.address, c)) }

theorem formed : ∀ c ∈ [rounded, total, amount, bill], c.Formed fun _ => True := by
  have referred (name : String) :
      (Expr.concept (.placeholder "local" name)).Formed fun _ => True :=
    .concept (.placeholder "local" name)
  have round : Call.of .round [.concept (.placeholder "local" "total"), .literal (.integer 2)] =
      .ok ⟨.round, [.concept (.placeholder "local" "total"), .literal (.integer 2)], .unknown,
        .property⟩ := rfl
  have sum : Call.of .sum [.concept (.placeholder "local" "amount")] =
      .ok ⟨.sum, [.concept (.placeholder "local" "amount")], .unknown, .metric⟩ := rfl
  have rounds : rounded.Formed fun _ => True :=
    have arguments := List.forall_mem_cons.mpr
      ⟨referred "total", List.forall_mem_singleton.mpr (.literal (.integer 2))⟩
    .derive "rounded" .auto (.call (.withDatatype trivial (.of arguments round)))
  have totals : total.Formed fun _ => True :=
    .derive "total" .auto (.call (.of (List.forall_mem_singleton.mpr (referred "amount")) sum))
  have amounts : amount.Formed fun _ => True :=
    .withKeys (.declare "amount" .float .property)
      (List.forall_mem_singleton.mpr (.placeholder "local" "bill"))
  have bills : bill.Formed fun _ => True := .declare "bill" .integer .key
  simp only [List.forall_mem_cons]
  exact ⟨rounds, totals, amounts, bills, List.forall_mem_nil _⟩

end Bills

/-- The total is checked over amounts when these are found, three declarations later. -/
theorem Builder.build_wellTyped_bills :
    (∀ key c, Bills.builder.concepts.get? key = some c → c.Formed fun _ => True) ∧
      ∃ catalog c x f, Bills.builder.build = .ok catalog ∧
        catalog.concepts.get? "local.rounded" = some c ∧ c.Reaches x ∧ f ∈ x.calls ∧
          f.operator = .sum ∧ f.arguments.map (·.checkedType?) = [some .float] ∧ f.WellTyped := by
  have formed : ∀ key c, Bills.builder.concepts.get? key = some c → c.Formed fun _ => True := by
    intro key c held
    have listed := NameMap.mem_of_mem_ofList (NameMap.mem_entries_of_get? held)
    obtain ⟨d, member, same⟩ := List.mem_map.mp listed
    exact (Prod.mk.inj same).2 ▸ Bills.formed d member
  have sums : Settles Bills.builder.build
      (fun catalog => (catalog.concepts.get? "local.rounded").any (fun c => c.mentions.any fun x =>
        x.calls.any fun f => f.operator == .sum &&
          f.arguments.map (·.checkedType?) == [some .float]) = true) fun _ => False := by
    decide +kernel
  obtain ⟨catalog, built, found⟩ := sums.exists_ok
  obtain ⟨c, held, found⟩ := Option.any_eq_true _ _ |>.mp found
  obtain ⟨x, member, found⟩ := List.any_eq_true.mp found
  obtain ⟨f, written, found⟩ := List.any_eq_true.mp found
  have reaches : c.Reaches x := .of_mem member (.refl x)
  simp only [Bool.and_eq_true, beq_iff_eq] at found
  exact ⟨formed, catalog, c, x, f, built, held, reaches, written, found.1, found.2,
    Builder.build_wellTyped formed built held reaches written⟩

end SemanticQuery
