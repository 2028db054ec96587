import SemanticQuery.Proofs.BoundValues

/-!
Binding in several steps. Types that are not known in one step become known in a later one and stay
as they are from then on, so a value that is bound to unfinished declarations first, and to finished
ones afterwards, gets the types that it would have got at once. Whether calls fit their signatures
is then a matter of the finished declarations alone.
-/

namespace SemanticQuery

/-- A type that is not known yet, or the same one. -/
def Vaguer (s t : Option DataType) : Prop := s = some .unknown ∨ s = t

theorem Vaguer.refl (t : Option DataType) : Vaguer t t := .inr rfl

namespace Call

/-- The type of a call over bound arguments. -/
def rebuiltType (operator : Operator) (old new : List Expr) (datatype : DataType) : DataType :=
  if datatype = .unknown ∨ resultType operator old = datatype then resultType operator new
  else datatype

theorem rebuild_eq_ok_iff {operator : Operator} {old new : List Expr} {datatype : DataType}
    {f : Call} :
    Call.rebuild operator old new datatype = .ok f ↔
      Fits operator new ∧ (datatype ≠ .unknown → Fits operator old) ∧
        f = ⟨operator, new, rebuiltType operator old new datatype,
          resultPurpose operator new⟩ := by
  unfold rebuiltType
  constructor
  · intro done
    unfold Call.rebuild at done
    obtain ⟨rebuilt, made, done⟩ := bind_eq_ok.mp done
    obtain ⟨fits, rfl⟩ := of_eq_ok_iff.mp made
    split at done
    · next unknown =>
      cases done
      have unknown := eq_of_beq unknown
      rw [if_pos (.inl unknown)]
      exact ⟨fits, fun known => absurd unknown known, rfl⟩
    · next known =>
      obtain ⟨plain, before, done⟩ := bind_eq_ok.mp done
      obtain ⟨also, rfl⟩ := of_eq_ok_iff.mp before
      refine ⟨fits, fun _ => also, ?_⟩
      rw [← pure_eq_ok.mp done]
      by_cases same : resultType operator old = datatype
      · simp [same]
      · simp [same, by simpa using known]
  · rintro ⟨fits, before, rfl⟩
    unfold Call.rebuild
    rw [of_eq_ok_iff.mpr ⟨fits, rfl⟩]
    refine bind_eq_ok.mpr ⟨_, rfl, ?_⟩
    by_cases unknown : datatype = .unknown
    · rw [if_pos (by simp [unknown]), if_pos (.inl unknown)]
      rfl
    · rw [if_neg (by simpa using unknown), of_eq_ok_iff.mpr ⟨before unknown, rfl⟩]
      refine bind_eq_ok.mpr ⟨_, rfl, pure_eq_ok.mpr ?_⟩
      by_cases same : resultType operator old = datatype
      · simp [same]
      · simp [same, unknown]

/-- Arguments fit if they fit once more is known of their types. -/
theorem Fits.of_vaguer {operator : Operator} {es ds : List Expr} (fits : Fits operator ds)
    (vaguer : List.Forall₂ Vaguer (es.map (·.checkedType?)) (ds.map (·.checkedType?))) :
    Fits operator es := by
  have length : es.length = ds.length := by simpa using vaguer.length_eq
  refine ⟨length ▸ fits.1, fun i e listed => ?_⟩
  obtain ⟨bound, rfl⟩ := List.getElem?_eq_some_iff.mp listed
  have also : i < ds.length := length ▸ bound
  have here := vaguer.get (by simpa using bound) (by simpa using also)
  simp only [List.get_eq_getElem, List.getElem_map] at here
  rcases here with unknown | same
  · unfold misfit?
    rw [unknown]
    split <;> simp_all
  · exact misfit?_congr same (fits.2 i _ (List.getElem?_eq_getElem also))

theorem resultType_vaguer {operator : Operator} {es ds : List Expr}
    (vaguer : List.Forall₂ Vaguer (es.map (·.datatype?)) (ds.map (·.datatype?))) :
    Vaguer (some (resultType operator es)) (some (resultType operator ds)) := by
  have pick {s t : List (Option DataType)} (vaguer : List.Forall₂ Vaguer s t) :
      Vaguer (some (s.head?.join.getD .unknown)) (some (t.head?.join.getD .unknown)) := by
    cases vaguer with
    | nil => exact .refl _
    | cons first _ =>
      rcases first with rfl | rfl
      · exact .inl rfl
      · exact .refl _
  have join (o : Option Expr) : o.bind (·.datatype?) = (o.map (·.datatype?)).join := by
    cases o <;> rfl
  unfold resultType
  cases operator.signature.output with
  | fixed type => exact .refl _
  | firstArgument =>
    dsimp only
    rw [join, join, ← List.head?_map, ← List.head?_map]
    exact pick vaguer
  | castTarget =>
    dsimp only
    rw [join, join, ← List.getLast?_map, ← List.getLast?_map, ← List.head?_reverse,
      ← List.head?_reverse]
    exact pick (List.forall₂_reverse_iff.mpr vaguer)

end Call

/-- What an intermediate and a last step make of a type, and what a single step does. -/
def Refines (view : α → Option DataType) (a b c : α) : Prop :=
  view b = view c ∧ Vaguer (view a) (view c)

/-- The same for values in a row. -/
def RefinesAll (view : α → Option DataType) (as bs cs : List α) : Prop :=
  bs.map view = cs.map view ∧ List.Forall₂ Vaguer (as.map view) (cs.map view)

theorem RefinesAll.cons {view : α → Option DataType} {a b c : α} {as bs cs : List α}
    (first : Refines view a b c) (rest : RefinesAll view as bs cs) :
    RefinesAll view (a :: as) (b :: bs) (c :: cs) :=
  ⟨congrArg₂ List.cons first.1 rest.1, .cons first.2 rest.2⟩

/-- Two steps in a row succeed if and only if a single one does, with results that are related. -/
def Chains (x : Except ε α) (f : α → Except ε α) (y : Except ε α) (post : α → α → α → Prop) :
    Prop :=
  (∀ c, y = .ok c → ∃ a b, x = .ok a ∧ f a = .ok b ∧ post a b c) ∧
    ∀ a b, x = .ok a → f a = .ok b → ∃ c, y = .ok c ∧ post a b c

namespace Chains

variable {x y : Except ε α} {f : α → Except ε α} {post : α → α → α → Prop}

theorem ok {a b c : α} (second : f a = .ok b) (related : post a b c) :
    Chains (.ok a) f (.ok c) post := by
  refine ⟨fun single done => ?_, fun first last done next => ?_⟩
  · cases done
    exact ⟨a, b, rfl, second, related⟩
  · cases done
    cases second.symm.trans next
    exact ⟨c, rfl, related⟩

variable {γ : Type _} {h : γ → Except ε γ} {after : γ → γ → γ → Prop}

theorem map {make : α → γ} (chains : Chains x f y post)
    (step : ∀ a, h (make a) = f a >>= fun b => pure (make b))
    (implied : ∀ a b c, post a b c → after (make a) (make b) (make c)) :
    Chains (x >>= fun a => pure (make a)) h (y >>= fun c => pure (make c)) after := by
  refine ⟨fun single done => ?_, fun first last done next => ?_⟩
  · obtain ⟨c, made, done⟩ := bind_eq_ok.mp done
    cases done
    obtain ⟨a, b, first, second, related⟩ := chains.1 c made
    refine ⟨make a, make b, bind_eq_ok.mpr ⟨a, first, rfl⟩, ?_, implied a b c related⟩
    rw [step]
    exact bind_eq_ok.mpr ⟨b, second, rfl⟩
  · obtain ⟨a, made, done⟩ := bind_eq_ok.mp done
    cases done
    rw [step] at next
    obtain ⟨b, second, next⟩ := bind_eq_ok.mp next
    cases next
    obtain ⟨c, single, related⟩ := chains.2 a b made second
    exact ⟨make c, bind_eq_ok.mpr ⟨c, single, rfl⟩, implied a b c related⟩

theorem both {β : Type _} {u v : Except ε β} {g : β → Except ε β} {also : β → β → β → Prop}
    {make : α → β → γ} (left : Chains x f y post) (right : Chains u g v also)
    (step : ∀ a b, h (make a b) = f a >>= fun a => g b >>= fun b => pure (make a b))
    (implied : ∀ a b c, post a b c → ∀ a' b' c', also a' b' c' →
      after (make a a') (make b b') (make c c')) :
    Chains (x >>= fun a => u >>= fun b => pure (make a b)) h
      (y >>= fun a => v >>= fun b => pure (make a b)) after := by
  refine ⟨fun single done => ?_, fun first last done next => ?_⟩
  · obtain ⟨c, made, done⟩ := bind_eq_ok.mp done
    obtain ⟨c', made', done⟩ := bind_eq_ok.mp done
    cases done
    obtain ⟨a, b, first, second, related⟩ := left.1 c made
    obtain ⟨a', b', first', second', related'⟩ := right.1 c' made'
    refine ⟨make a a', make b b', bind_eq_ok.mpr ⟨a, first, bind_eq_ok.mpr ⟨a', first', rfl⟩⟩,
      ?_, implied a b c related a' b' c' related'⟩
    rw [step]
    exact bind_eq_ok.mpr ⟨b, second, bind_eq_ok.mpr ⟨b', second', rfl⟩⟩
  · obtain ⟨a, made, done⟩ := bind_eq_ok.mp done
    obtain ⟨a', made', done⟩ := bind_eq_ok.mp done
    cases done
    rw [step] at next
    obtain ⟨b, second, next⟩ := bind_eq_ok.mp next
    obtain ⟨b', second', next⟩ := bind_eq_ok.mp next
    cases next
    obtain ⟨c, single, related⟩ := left.2 a b made second
    obtain ⟨c', single', related'⟩ := right.2 a' b' made' second'
    exact ⟨make c c', bind_eq_ok.mpr ⟨c, single, bind_eq_ok.mpr ⟨c', single', rfl⟩⟩,
      implied a b c related a' b' c' related'⟩

theorem three {β δ : Type _} {u v : Except ε β} {g : β → Except ε β} {also : β → β → β → Prop}
    {w z : Except ε δ} {k : δ → Except ε δ} {last : δ → δ → δ → Prop} {make : α → β → δ → γ}
    (first : Chains x f y post) (second : Chains u g v also) (third : Chains w k z last)
    (step : ∀ a b c, h (make a b c) =
      f a >>= fun a => g b >>= fun b => k c >>= fun c => pure (make a b c))
    (implied : ∀ a b c, post a b c → ∀ a' b' c' a'' b'' c'',
      after (make a a' a'') (make b b' b'') (make c c' c'')) :
    Chains (x >>= fun a => u >>= fun b => w >>= fun c => pure (make a b c)) h
      (y >>= fun a => v >>= fun b => z >>= fun c => pure (make a b c)) after := by
  have others : Chains (u >>= fun b => w >>= fun c => pure (b, c))
      (fun pair => g pair.1 >>= fun b => k pair.2 >>= fun c => pure (b, c))
      (v >>= fun b => z >>= fun c => pure (b, c)) fun _ _ _ => True :=
    second.both third (fun _ _ => rfl) fun _ _ _ _ _ _ _ _ => trivial
  have all : Chains (x >>= fun a => (u >>= fun b => w >>= fun c => pure (b, c)) >>= fun pair =>
        pure (make a pair.1 pair.2)) h
      (y >>= fun a => (v >>= fun b => z >>= fun c => pure (b, c)) >>= fun pair =>
        pure (make a pair.1 pair.2)) after :=
    first.both others (fun a pair => by simp [step])
      fun a b c related _ _ _ _ => implied a b c related _ _ _ _ _ _
  simpa using all

end Chains

section Steps

variable {early late : Resolver}

/-- An address for which one resolver has a declaration that the other can finish, to the type of
its own. -/
def Conforms (early late : Resolver) (address : String) : Prop :=
  ∃ c bound final, early address = .ok c ∧ late address = .ok final ∧ c.rebind late = .ok bound ∧
    bound.datatype = final.datatype

/-- A concept in which every reference conforms. -/
abbrev Concept.Conforming (early late : Resolver) (c : Concept) : Prop :=
  c.Throughout fun x => x.isPlaceholder = true → Conforms early late x.address

theorem Concept.datatype_rebuilt (old : Concept) (lineage : Option Lineage) (keys : List Concept) :
    (old.rebuild lineage keys).datatype =
      if old.datatype = .unknown then (lineage.map Lineage.datatype).getD .unknown
      else old.datatype := by
  cases lineage with
  | none =>
    split
    · next unknown => exact unknown
    · rfl
  | some lineage => exact datatype_rebuild old lineage keys

theorem Concept.vaguer_rebind {resolve : Resolver} {c bound : Concept}
    (done : c.rebind resolve = .ok bound) : Vaguer (some c.datatype) (some bound.datatype) := by
  by_cases unknown : c.datatype = .unknown
  · exact .inl (congrArg some unknown)
  · have present : c.isPlaceholder = false := by simp [isPlaceholder, unknown]
    obtain ⟨lineage, keys, _, _, rfl⟩ := rebind_present present done
    rw [datatype_rebuilt, if_neg unknown]
    exact .refl _

/-- A type that is not known is filled in by the first step that knows it. -/
theorem Concept.refines_rebuild {old : Concept} {first second single : Option Lineage}
    {keys others owners : List Concept}
    (types : Refines (Option.map Lineage.datatype) first second single) :
    Refines (fun c : Concept => some c.datatype) (old.rebuild first keys)
      ((old.rebuild first keys).rebuild second others) (old.rebuild single owners) := by
  obtain ⟨same, vaguer⟩ := types
  simp only [Refines, datatype_rebuilt, same]
  by_cases unknown : old.datatype = .unknown
  · simp only [unknown, if_true]
    rcases vaguer with none | equal
    · simp [none, Vaguer]
    · simp [equal, Vaguer]
  · simp [unknown, Vaguer]

/-- A call whose type follows from its arguments takes the type of the last ones; a type that was
declared stays. -/
theorem Call.refines_rebuilt (operator : Operator) (old : List Expr) (datatype : DataType)
    {first second single : List Expr} (types : RefinesAll Expr.datatype? first second single) :
    rebuiltType operator first second (rebuiltType operator old first datatype) =
        rebuiltType operator old single datatype ∧
      Vaguer (some (rebuiltType operator old first datatype))
        (some (rebuiltType operator old single datatype)) := by
  have last : resultType operator second = resultType operator single := resultType_congr types.1
  have vaguer : Vaguer (some (resultType operator first)) (some (resultType operator single)) :=
    resultType_vaguer types.2
  unfold rebuiltType
  by_cases follows : datatype = .unknown ∨ resultType operator old = datatype
  · simp only [if_pos follows, or_true, if_true, last]
    exact ⟨trivial, vaguer⟩
  · simp only [if_neg follows]
    obtain ⟨known, _⟩ := not_or.mp follows
    refine ⟨?_, .refl _⟩
    split
    · next same =>
      have same := same.resolve_left known
      rcases vaguer with unknown | equal
      · exact absurd (same.symm.trans (Option.some.inj unknown)) known
      · rw [last, ← Option.some.inj equal, same]
    · rfl

/-- What is said of the types of expressions in two steps. -/
abbrev Expr.Refined (a b c : Expr) : Prop :=
  Refines Expr.checkedType? a b c ∧ Refines Expr.datatype? a b c

abbrev Expr.RefinedAll (as bs cs : List Expr) : Prop :=
  RefinesAll Expr.checkedType? as bs cs ∧ RefinesAll Expr.datatype? as bs cs

theorem Call.chains_of_arguments {operator : Operator} {arguments : List Expr}
    {datatype : DataType} {purpose : Purpose}
    (chains : Chains (Expr.rebindAll early arguments) (Expr.rebindAll late)
      (Expr.rebindAll late arguments) Expr.RefinedAll) :
    Chains (Call.rebind early ⟨operator, arguments, datatype, purpose⟩) (·.rebind late)
      (Call.rebind late ⟨operator, arguments, datatype, purpose⟩)
      (Refines fun f => some f.datatype) := by
  rw [Call.rebind, Call.rebind]
  refine ⟨fun f done => ?_, fun f g done next => ?_⟩
  · obtain ⟨single, bound, done⟩ := bind_eq_ok.mp done
    obtain ⟨fits, before, rfl⟩ := rebuild_eq_ok_iff.mp done
    obtain ⟨first, second, one, two, checked, types⟩ := chains.1 single bound
    have middle : Fits operator first := fits.of_vaguer checked.2
    obtain ⟨same, vaguer⟩ := refines_rebuilt operator arguments datatype types
    let made : Call := ⟨operator, first, rebuiltType operator arguments first datatype,
      resultPurpose operator first⟩
    have later : made.rebind late = .ok ⟨operator, second,
        rebuiltType operator first second made.datatype, resultPurpose operator second⟩ := by
      rw [Call.rebind]
      exact bind_eq_ok.mpr ⟨second, two,
        rebuild_eq_ok_iff.mpr ⟨fits.congr checked.1, fun _ => middle, rfl⟩⟩
    exact ⟨made, _, bind_eq_ok.mpr ⟨first, one, rebuild_eq_ok_iff.mpr ⟨middle, before, rfl⟩⟩,
      later, congrArg some same, vaguer⟩
  · obtain ⟨first, one, done⟩ := bind_eq_ok.mp done
    obtain ⟨_, before, rfl⟩ := rebuild_eq_ok_iff.mp done
    beta_reduce at next
    rw [Call.rebind] at next
    obtain ⟨second, two, next⟩ := bind_eq_ok.mp next
    obtain ⟨fits, _, rfl⟩ := rebuild_eq_ok_iff.mp next
    obtain ⟨single, bound, checked, types⟩ := chains.2 first second one two
    obtain ⟨same, vaguer⟩ := refines_rebuilt operator arguments datatype types
    exact ⟨_, bind_eq_ok.mpr ⟨single, bound,
      rebuild_eq_ok_iff.mpr ⟨fits.congr checked.1.symm, before, rfl⟩⟩, congrArg some same, vaguer⟩

mutual

theorem Concept.chains_rebind (c : Concept) (conform : c.Conforming early late) :
    Chains (c.rebind early) (·.rebind late) (c.rebind late)
      (Refines fun c => some c.datatype) := by
  cases missing : c.isPlaceholder with
  | true =>
    obtain ⟨first, bound, final, found, last, done, same⟩ := conform.here missing
    rw [Concept.rebind_placeholder missing, Concept.rebind_placeholder missing, found, last]
    have vaguer := Concept.vaguer_rebind done
    rw [same] at vaguer
    exact .ok done ⟨congrArg some same, vaguer⟩
  | false =>
    have mentions := Concept.mentions_eq missing
    obtain ⟨name, datatype, purpose, metadata, lineage, ns, keys, grain⟩ := c
    have derivation := Lineage.chains_rebindOption lineage fun x operand =>
      conform.of_mem (mentions ▸ List.mem_append_right _ operand)
    have owners := Concept.chains_rebindAll keys fun x key =>
      conform.of_mem (mentions ▸ List.mem_append_left _ key)
    refine ⟨fun single done => ?_, fun first second done next => ?_⟩
    · obtain ⟨_, _, derived, owned, rfl⟩ := Concept.rebind_present missing done
      obtain ⟨_, _, one, two, types⟩ := derivation.1 _ derived
      obtain ⟨_, _, one', two', _⟩ := owners.1 _ owned
      have made := Concept.rebind_eq_ok missing one one'
      exact ⟨_, _, made, Concept.rebind_eq_ok (Concept.isPlaceholder_rebind missing made) two two',
        Concept.refines_rebuild types⟩
    · have still := Concept.isPlaceholder_rebind missing done
      obtain ⟨_, _, one, one', rfl⟩ := Concept.rebind_present missing done
      obtain ⟨_, _, two, two', rfl⟩ := Concept.rebind_present still next
      obtain ⟨_, derived, types⟩ := derivation.2 _ _ one two
      obtain ⟨_, owned, _⟩ := owners.2 _ _ one' two'
      exact ⟨_, Concept.rebind_eq_ok missing derived owned, Concept.refines_rebuild types⟩

theorem Concept.chains_rebindAll (cs : List Concept)
    (conform : ∀ c ∈ cs, c.Conforming early late) :
    Chains (Concept.rebindAll early cs) (Concept.rebindAll late) (Concept.rebindAll late cs)
      fun _ _ _ => True := by
  cases cs with
  | nil =>
    rw [Concept.rebindAll, Concept.rebindAll]
    exact .ok (by rw [Concept.rebindAll]; rfl) trivial
  | cons c cs =>
    obtain ⟨first, rest⟩ := List.forall_mem_cons.mp conform
    rw [Concept.rebindAll, Concept.rebindAll]
    exact (Concept.chains_rebind c first).both (Concept.chains_rebindAll cs rest)
      (fun a b => by rw [Concept.rebindAll]) fun _ _ _ _ _ _ _ _ => trivial

theorem Lineage.chains_rebindOption (lineage : Option Lineage)
    (conform : ∀ x ∈ (lineage.map Lineage.operands).getD [], x.Conforming early late) :
    Chains (Lineage.rebindOption early lineage) (Lineage.rebindOption late)
      (Lineage.rebindOption late lineage) (Refines (Option.map Lineage.datatype)) := by
  cases lineage with
  | none =>
    rw [Lineage.rebindOption, Lineage.rebindOption]
    exact .ok (by rw [Lineage.rebindOption]; rfl) ⟨rfl, .refl _⟩
  | some lineage =>
    rw [Lineage.rebindOption, Lineage.rebindOption]
    exact (Lineage.chains_rebind lineage conform).map (fun a => by rw [Lineage.rebindOption])
      fun _ _ _ types => types

theorem Lineage.chains_rebind (lineage : Lineage)
    (conform : ∀ x ∈ lineage.operands, x.Conforming early late) :
    Chains (lineage.rebind early) (·.rebind late) (lineage.rebind late)
      (Refines fun lineage => some lineage.datatype) := by
  cases lineage with
  | call f =>
    rw [Lineage.rebind, Lineage.rebind]
    exact (Call.chains_rebind f conform).map (fun a => by rw [Lineage.rebind])
      fun _ _ _ types => types
  | window w =>
    rw [Lineage.rebind, Lineage.rebind]
    exact (Window.chains_rebind w conform).map (fun a => by rw [Lineage.rebind])
      fun _ _ _ types => types
  | filter content condition =>
    obtain ⟨first, rest⟩ := List.forall_mem_cons.mp conform
    rw [Lineage.rebind, Lineage.rebind]
    exact (Concept.chains_rebind content first).both (Condition.chains_rebind condition rest)
      (fun a b => by rw [Lineage.rebind]) fun _ _ _ types _ _ _ _ => types
  | aggregate a =>
    rw [Lineage.rebind, Lineage.rebind]
    exact (Aggregate.chains_rebind a conform).map (fun a => by rw [Lineage.rebind])
      fun _ _ _ types => types
  | multiSelect multi =>
    rw [Lineage.rebind, Lineage.rebind]
    exact .ok (by rw [Lineage.rebind]; rfl) ⟨rfl, .refl _⟩

theorem Call.chains_rebind (f : Call) (conform : ∀ x ∈ f.reads, x.Conforming early late) :
    Chains (f.rebind early) (·.rebind late) (f.rebind late)
      (Refines fun f => some f.datatype) := by
  obtain ⟨operator, arguments, datatype, purpose⟩ := f
  rw [Call.reads] at conform
  exact Call.chains_of_arguments (Expr.chains_rebindAll arguments conform)

theorem Aggregate.chains_rebind (a : Aggregate)
    (conform : ∀ x ∈ a.reads, x.Conforming early late) :
    Chains (a.rebind early) (·.rebind late) (a.rebind late)
      (Refines fun a => some a.call.datatype) := by
  obtain ⟨call, groupBy⟩ := a
  rw [Aggregate.reads] at conform
  obtain ⟨reads, groups⟩ := List.forall_mem_append.mp conform
  rw [Aggregate.rebind, Aggregate.rebind]
  exact (Call.chains_rebind call reads).both (Concept.chains_rebindAll groupBy groups)
    (fun a b => by rw [Aggregate.rebind]) fun _ _ _ types _ _ _ _ => types

theorem Expr.chains_rebind (e : Expr) (conform : ∀ x ∈ e.reads, x.Conforming early late) :
    Chains (e.rebind early) (·.rebind late) (e.rebind late) Expr.Refined := by
  cases e with
  | concept c =>
    rw [Expr.reads] at conform
    rw [Expr.rebind, Expr.rebind]
    exact (Concept.chains_rebind c (List.forall_mem_singleton.mp conform)).map
      (fun a => by rw [Expr.rebind]) fun _ _ _ types => ⟨types, types⟩
  | literal l =>
    rw [Expr.rebind, Expr.rebind]
    exact .ok (by rw [Expr.rebind]; rfl) ⟨⟨rfl, .refl _⟩, rfl, .refl _⟩
  | call f =>
    rw [Expr.reads] at conform
    rw [Expr.rebind, Expr.rebind]
    exact (Call.chains_rebind f conform).map (fun a => by rw [Expr.rebind])
      fun _ _ _ types => ⟨types, types⟩
  | aggregate a =>
    rw [Expr.reads] at conform
    rw [Expr.rebind, Expr.rebind]
    exact (Aggregate.chains_rebind a conform).map (fun a => by rw [Expr.rebind])
      fun _ _ _ types => ⟨types, types⟩
  | case branches otherwise =>
    rw [Expr.reads] at conform
    obtain ⟨arms, last⟩ := List.forall_mem_append.mp conform
    rw [Expr.rebind, Expr.rebind]
    refine (Branch.chains_rebindAll branches arms).both (Expr.chains_rebindOption otherwise last)
      (fun a b => by rw [Expr.rebind]) fun as bs cs types _ _ _ _ => ⟨⟨rfl, .refl _⟩, ?_⟩
    simpa only [Refines, Expr.datatype?_case] using types
  | datatype t =>
    rw [Expr.rebind, Expr.rebind]
    exact .ok (by rw [Expr.rebind]; rfl) ⟨⟨rfl, .refl _⟩, rfl, .refl _⟩
  | list items =>
    rw [Expr.rebind, Expr.rebind]
    exact .ok (by rw [Expr.rebind]; rfl) ⟨⟨rfl, .refl _⟩, rfl, .refl _⟩

theorem Expr.chains_rebindAll (es : List Expr)
    (conform : ∀ x ∈ Expr.readsAll es, x.Conforming early late) :
    Chains (Expr.rebindAll early es) (Expr.rebindAll late) (Expr.rebindAll late es)
      Expr.RefinedAll := by
  cases es with
  | nil =>
    rw [Expr.rebindAll, Expr.rebindAll]
    exact .ok (by rw [Expr.rebindAll]; rfl) ⟨⟨rfl, .nil⟩, rfl, .nil⟩
  | cons e es =>
    rw [Expr.readsAll] at conform
    obtain ⟨first, rest⟩ := List.forall_mem_append.mp conform
    rw [Expr.rebindAll, Expr.rebindAll]
    exact (Expr.chains_rebind e first).both (Expr.chains_rebindAll es rest)
      (fun a b => by rw [Expr.rebindAll])
      fun _ _ _ types _ _ _ others => ⟨.cons types.1 others.1, .cons types.2 others.2⟩

theorem Expr.chains_rebindOption (e : Option Expr)
    (conform : ∀ x ∈ Expr.readsOption e, x.Conforming early late) :
    Chains (Expr.rebindOption early e) (Expr.rebindOption late) (Expr.rebindOption late e)
      fun _ _ _ => True := by
  cases e with
  | none =>
    rw [Expr.rebindOption, Expr.rebindOption]
    exact .ok (by rw [Expr.rebindOption]; rfl) trivial
  | some e =>
    rw [Expr.readsOption] at conform
    rw [Expr.rebindOption, Expr.rebindOption]
    exact (Expr.chains_rebind e conform).map (fun a => by rw [Expr.rebindOption])
      fun _ _ _ _ => trivial

theorem Branch.chains_rebind (b : Branch) (conform : ∀ x ∈ b.reads, x.Conforming early late) :
    Chains (b.rebind early) (·.rebind late) (b.rebind late)
      (Refines fun b => b.result.datatype?) := by
  obtain ⟨condition, result⟩ := b
  rw [Branch.reads] at conform
  obtain ⟨test, value⟩ := List.forall_mem_append.mp conform
  rw [Branch.rebind, Branch.rebind]
  exact (Condition.chains_rebind condition test).both (Expr.chains_rebind result value)
    (fun a b => by rw [Branch.rebind]) fun _ _ _ _ _ _ _ types => types.2

theorem Branch.chains_rebindAll (bs : List Branch)
    (conform : ∀ x ∈ Branch.readsAll bs, x.Conforming early late) :
    Chains (Branch.rebindAll early bs) (Branch.rebindAll late) (Branch.rebindAll late bs)
      (Refines fun bs => bs.head?.bind fun b => b.result.datatype?) := by
  cases bs with
  | nil =>
    rw [Branch.rebindAll, Branch.rebindAll]
    exact .ok (by rw [Branch.rebindAll]; rfl) ⟨rfl, .refl _⟩
  | cons b bs =>
    rw [Branch.readsAll] at conform
    obtain ⟨first, rest⟩ := List.forall_mem_append.mp conform
    rw [Branch.rebindAll, Branch.rebindAll]
    exact (Branch.chains_rebind b first).both (Branch.chains_rebindAll bs rest)
      (fun a b => by rw [Branch.rebindAll]) fun _ _ _ types _ _ _ _ => types

theorem Condition.chains_rebind (condition : Condition)
    (conform : ∀ x ∈ condition.reads, x.Conforming early late) :
    Chains (condition.rebind early) (·.rebind late) (condition.rebind late)
      fun _ _ _ => True := by
  cases condition with
  | compare left right comparator =>
    rw [Condition.reads] at conform
    obtain ⟨first, second⟩ := List.forall_mem_append.mp conform
    rw [Condition.rebind, Condition.rebind]
    exact (Expr.chains_rebind left first).both (Expr.chains_rebind right second)
      (fun a b => by rw [Condition.rebind]) fun _ _ _ _ _ _ _ _ => trivial
  | combine left right connective =>
    rw [Condition.reads] at conform
    obtain ⟨first, second⟩ := List.forall_mem_append.mp conform
    rw [Condition.rebind, Condition.rebind]
    exact (Condition.chains_rebind left first).both (Condition.chains_rebind right second)
      (fun a b => by rw [Condition.rebind]) fun _ _ _ _ _ _ _ _ => trivial
  | parenthesis inner =>
    rw [Condition.reads] at conform
    rw [Condition.rebind, Condition.rebind]
    exact (Condition.chains_rebind inner conform).map (fun a => by rw [Condition.rebind])
      fun _ _ _ _ => trivial

theorem Window.chains_rebind (w : Window) (conform : ∀ x ∈ w.reads, x.Conforming early late) :
    Chains (w.rebind early) (·.rebind late) (w.rebind late)
      (Refines fun w => some (Lineage.window w).datatype) := by
  obtain ⟨kind, content, orderBy, partitions, index⟩ := w
  obtain ⟨before, ordered⟩ := List.forall_mem_append.mp conform
  obtain ⟨first, others⟩ := List.forall_mem_cons.mp before
  rw [Window.rebind, Window.rebind]
  refine (Concept.chains_rebind content first).three
    (OrderItem.chains_rebindAll orderBy ordered) (Concept.chains_rebindAll partitions others)
    (fun a b c => by rw [Window.rebind]) fun a b c types _ _ _ _ _ _ => ?_
  cases kind with
  | rowNumber | rank => exact ⟨rfl, .refl _⟩
  | lag | lead => exact types

theorem OrderItem.chains_rebindAll (items : List OrderItem)
    (conform : ∀ x ∈ items.map (·.concept), x.Conforming early late) :
    Chains (OrderItem.rebindAll early items) (OrderItem.rebindAll late)
      (OrderItem.rebindAll late items) fun _ _ _ => True := by
  cases items with
  | nil =>
    rw [OrderItem.rebindAll, OrderItem.rebindAll]
    exact .ok (by rw [OrderItem.rebindAll]; rfl) trivial
  | cons item items =>
    obtain ⟨first, rest⟩ := List.forall_mem_cons.mp conform
    rw [OrderItem.rebindAll, OrderItem.rebindAll]
    exact (OrderItem.chains_rebind item first).both (OrderItem.chains_rebindAll items rest)
      (fun a b => by rw [OrderItem.rebindAll]) fun _ _ _ _ _ _ _ _ => trivial

theorem OrderItem.chains_rebind (item : OrderItem) (conform : item.concept.Conforming early late) :
    Chains (item.rebind early) (·.rebind late) (item.rebind late) fun _ _ _ => True := by
  obtain ⟨concept, direction⟩ := item
  rw [OrderItem.rebind, OrderItem.rebind]
  exact (Concept.chains_rebind concept conform).map (fun a => by rw [OrderItem.rebind])
    fun _ _ _ _ => trivial

end

end Steps

section Agreement

variable {one other : Resolver}

/-- A concept in which two resolvers find the same for every reference. -/
abbrev Concept.Agreeing (one other : Resolver) (c : Concept) : Prop :=
  c.Throughout fun x => x.isPlaceholder = true → one x.address = other x.address

mutual

theorem Concept.rebind_congr (c : Concept) (agree : c.Agreeing one other) :
    c.rebind one = c.rebind other := by
  cases missing : c.isPlaceholder with
  | true =>
    rw [Concept.rebind_placeholder missing, Concept.rebind_placeholder missing]
    exact agree.here missing
  | false =>
    have mentions := Concept.mentions_eq missing
    obtain ⟨name, datatype, purpose, metadata, lineage, ns, keys, grain⟩ := c
    have derivation := Lineage.rebindOption_congr lineage fun x operand =>
      agree.of_mem (mentions ▸ List.mem_append_right _ operand)
    have owners := Concept.rebindAll_congr keys fun x key =>
      agree.of_mem (mentions ▸ List.mem_append_left _ key)
    rw [Concept.rebind, Concept.rebind, derivation, owners,
      if_neg (Bool.eq_false_iff.mp missing), if_neg (Bool.eq_false_iff.mp missing)]

theorem Concept.rebindAll_congr (cs : List Concept) (agree : ∀ c ∈ cs, c.Agreeing one other) :
    Concept.rebindAll one cs = Concept.rebindAll other cs := by
  cases cs with
  | nil => rw [Concept.rebindAll, Concept.rebindAll]
  | cons c cs =>
    obtain ⟨first, rest⟩ := List.forall_mem_cons.mp agree
    rw [Concept.rebindAll, Concept.rebindAll, Concept.rebind_congr c first,
      Concept.rebindAll_congr cs rest]

theorem Lineage.rebindOption_congr (lineage : Option Lineage)
    (agree : ∀ x ∈ (lineage.map Lineage.operands).getD [], x.Agreeing one other) :
    Lineage.rebindOption one lineage = Lineage.rebindOption other lineage := by
  cases lineage with
  | none => rw [Lineage.rebindOption, Lineage.rebindOption]
  | some lineage =>
    rw [Lineage.rebindOption, Lineage.rebindOption, Lineage.rebind_congr lineage agree]

theorem Lineage.rebind_congr (lineage : Lineage)
    (agree : ∀ x ∈ lineage.operands, x.Agreeing one other) :
    lineage.rebind one = lineage.rebind other := by
  cases lineage with
  | call f => rw [Lineage.rebind, Lineage.rebind, Call.rebind_congr f agree]
  | window w => rw [Lineage.rebind, Lineage.rebind, Window.rebind_congr w agree]
  | filter content condition =>
    obtain ⟨first, rest⟩ := List.forall_mem_cons.mp agree
    rw [Lineage.rebind, Lineage.rebind, Concept.rebind_congr content first,
      Condition.rebind_congr condition rest]
  | aggregate a => rw [Lineage.rebind, Lineage.rebind, Aggregate.rebind_congr a agree]
  | multiSelect multi => rw [Lineage.rebind, Lineage.rebind]

theorem Call.rebind_congr (f : Call) (agree : ∀ x ∈ f.reads, x.Agreeing one other) :
    f.rebind one = f.rebind other := by
  obtain ⟨operator, arguments, datatype, purpose⟩ := f
  rw [Call.reads] at agree
  rw [Call.rebind, Call.rebind, Expr.rebindAll_congr arguments agree]

theorem Aggregate.rebind_congr (a : Aggregate) (agree : ∀ x ∈ a.reads, x.Agreeing one other) :
    a.rebind one = a.rebind other := by
  obtain ⟨call, groupBy⟩ := a
  rw [Aggregate.reads] at agree
  obtain ⟨reads, groups⟩ := List.forall_mem_append.mp agree
  rw [Aggregate.rebind, Aggregate.rebind, Call.rebind_congr call reads,
    Concept.rebindAll_congr groupBy groups]

theorem Expr.rebind_congr (e : Expr) (agree : ∀ x ∈ e.reads, x.Agreeing one other) :
    e.rebind one = e.rebind other := by
  cases e with
  | concept c =>
    rw [Expr.reads] at agree
    rw [Expr.rebind, Expr.rebind, Concept.rebind_congr c (List.forall_mem_singleton.mp agree)]
  | literal l => rw [Expr.rebind, Expr.rebind]
  | call f =>
    rw [Expr.reads] at agree
    rw [Expr.rebind, Expr.rebind, Call.rebind_congr f agree]
  | aggregate a =>
    rw [Expr.reads] at agree
    rw [Expr.rebind, Expr.rebind, Aggregate.rebind_congr a agree]
  | case branches otherwise =>
    rw [Expr.reads] at agree
    obtain ⟨arms, last⟩ := List.forall_mem_append.mp agree
    rw [Expr.rebind, Expr.rebind, Branch.rebindAll_congr branches arms,
      Expr.rebindOption_congr otherwise last]
  | datatype t => rw [Expr.rebind, Expr.rebind]
  | list items => rw [Expr.rebind, Expr.rebind]

theorem Expr.rebindAll_congr (es : List Expr)
    (agree : ∀ x ∈ Expr.readsAll es, x.Agreeing one other) :
    Expr.rebindAll one es = Expr.rebindAll other es := by
  cases es with
  | nil => rw [Expr.rebindAll, Expr.rebindAll]
  | cons e es =>
    rw [Expr.readsAll] at agree
    obtain ⟨first, rest⟩ := List.forall_mem_append.mp agree
    rw [Expr.rebindAll, Expr.rebindAll, Expr.rebind_congr e first, Expr.rebindAll_congr es rest]

theorem Expr.rebindOption_congr (e : Option Expr)
    (agree : ∀ x ∈ Expr.readsOption e, x.Agreeing one other) :
    Expr.rebindOption one e = Expr.rebindOption other e := by
  cases e with
  | none => rw [Expr.rebindOption, Expr.rebindOption]
  | some e =>
    rw [Expr.readsOption] at agree
    rw [Expr.rebindOption, Expr.rebindOption, Expr.rebind_congr e agree]

theorem Branch.rebind_congr (b : Branch) (agree : ∀ x ∈ b.reads, x.Agreeing one other) :
    b.rebind one = b.rebind other := by
  obtain ⟨condition, result⟩ := b
  rw [Branch.reads] at agree
  obtain ⟨test, value⟩ := List.forall_mem_append.mp agree
  rw [Branch.rebind, Branch.rebind, Condition.rebind_congr condition test,
    Expr.rebind_congr result value]

theorem Branch.rebindAll_congr (bs : List Branch)
    (agree : ∀ x ∈ Branch.readsAll bs, x.Agreeing one other) :
    Branch.rebindAll one bs = Branch.rebindAll other bs := by
  cases bs with
  | nil => rw [Branch.rebindAll, Branch.rebindAll]
  | cons b bs =>
    rw [Branch.readsAll] at agree
    obtain ⟨first, rest⟩ := List.forall_mem_append.mp agree
    rw [Branch.rebindAll, Branch.rebindAll, Branch.rebind_congr b first,
      Branch.rebindAll_congr bs rest]

theorem Condition.rebind_congr (condition : Condition)
    (agree : ∀ x ∈ condition.reads, x.Agreeing one other) :
    condition.rebind one = condition.rebind other := by
  cases condition with
  | compare left right comparator =>
    rw [Condition.reads] at agree
    obtain ⟨first, second⟩ := List.forall_mem_append.mp agree
    rw [Condition.rebind, Condition.rebind, Expr.rebind_congr left first,
      Expr.rebind_congr right second]
  | combine left right connective =>
    rw [Condition.reads] at agree
    obtain ⟨first, second⟩ := List.forall_mem_append.mp agree
    rw [Condition.rebind, Condition.rebind, Condition.rebind_congr left first,
      Condition.rebind_congr right second]
  | parenthesis inner =>
    rw [Condition.reads] at agree
    rw [Condition.rebind, Condition.rebind, Condition.rebind_congr inner agree]

theorem Window.rebind_congr (w : Window) (agree : ∀ x ∈ w.reads, x.Agreeing one other) :
    w.rebind one = w.rebind other := by
  obtain ⟨kind, content, orderBy, partitions, index⟩ := w
  obtain ⟨before, ordered⟩ := List.forall_mem_append.mp agree
  obtain ⟨first, others⟩ := List.forall_mem_cons.mp before
  rw [Window.rebind, Window.rebind, Concept.rebind_congr content first,
    OrderItem.rebindAll_congr orderBy ordered, Concept.rebindAll_congr partitions others]

theorem OrderItem.rebindAll_congr (items : List OrderItem)
    (agree : ∀ x ∈ items.map (·.concept), x.Agreeing one other) :
    OrderItem.rebindAll one items = OrderItem.rebindAll other items := by
  cases items with
  | nil => rw [OrderItem.rebindAll, OrderItem.rebindAll]
  | cons item items =>
    obtain ⟨first, rest⟩ := List.forall_mem_cons.mp agree
    rw [OrderItem.rebindAll, OrderItem.rebindAll, OrderItem.rebind_congr item first,
      OrderItem.rebindAll_congr items rest]

theorem OrderItem.rebind_congr (item : OrderItem) (agree : item.concept.Agreeing one other) :
    item.rebind one = item.rebind other := by
  obtain ⟨concept, direction⟩ := item
  rw [OrderItem.rebind, OrderItem.rebind, Concept.rebind_congr concept agree]

end

end Agreement

/-- A call that fits its signature, of an unknown type only if none follows from its arguments. -/
structure Call.Settled (f : Call) : Prop where
  fits : Call.Fits f.operator f.arguments
  datatype : f.datatype = .unknown → resultType f.operator f.arguments = .unknown

/-- A concept with settled calls, of an unknown type only if its derivation has none. -/
structure Concept.Settled (c : Concept) : Prop where
  calls : ∀ f ∈ c.calls, f.Settled
  datatype : ∀ lineage, c.lineage = some lineage → c.datatype = .unknown →
    lineage.datatype = .unknown

/-- A concept that is settled and no placeholder. -/
abbrev Concept.Final (c : Concept) : Prop := c.isPlaceholder = false ∧ c.Settled

section Stability

variable {resolve : Resolver}

/-- Reads and calls that are settled, with everything that is reached from them. -/
abbrev Lasting : List Concept → List Call → Prop := Pervades Concept.Final Call.Settled

theorem Call.stable_rebuild {operator : Operator} {old new : List Expr} {datatype : DataType}
    {purpose : Purpose} (settled : Call.Settled ⟨operator, old, datatype, purpose⟩)
    (checked : new.map (·.checkedType?) = old.map (·.checkedType?))
    (types : new.map (·.datatype?) = old.map (·.datatype?)) :
    ∃ bound, Call.rebuild operator old new datatype = .ok bound ∧ bound.datatype = datatype := by
  refine ⟨_, rebuild_eq_ok_iff.mpr ⟨settled.fits.congr checked, fun _ => settled.fits, rfl⟩, ?_⟩
  change rebuiltType operator old new datatype = datatype
  rw [rebuiltType, resultType_congr types]
  split
  · next follows =>
    rcases follows with rfl | same
    · exact settled.datatype rfl
    · exact same
  · rfl

mutual

theorem Concept.stable_rebind (c : Concept) (final : c.Throughout Concept.Final) :
    ∃ bound, c.rebind resolve = .ok bound ∧ bound.datatype = c.datatype := by
  obtain ⟨present, settled⟩ := final.here
  have mentions := Concept.mentions_eq present
  obtain ⟨name, datatype, purpose, metadata, lineage, ns, keys, grain⟩ := c
  obtain ⟨owners, owned⟩ := Concept.stable_rebindAll keys fun x key =>
    final.of_mem (mentions ▸ List.mem_append_left _ key)
  obtain ⟨derivation, derived, types⟩ := Lineage.stable_rebindOption lineage
    ⟨fun x operand => final.of_mem (mentions ▸ List.mem_append_right _ operand), settled.calls⟩
  refine ⟨_, Concept.rebind_eq_ok present derived owned, ?_⟩
  rw [Concept.datatype_rebuilt, types]
  split
  · next unknown =>
    cases lineage with
    | none => exact unknown.symm
    | some lineage => exact (settled.datatype lineage rfl unknown).trans unknown.symm
  · rfl

theorem Concept.stable_rebindAll (cs : List Concept)
    (final : ∀ c ∈ cs, c.Throughout Concept.Final) :
    ∃ bound, Concept.rebindAll resolve cs = .ok bound := by
  cases cs with
  | nil =>
    rw [Concept.rebindAll]
    exact ⟨_, rfl⟩
  | cons c cs =>
    obtain ⟨first, rest⟩ := List.forall_mem_cons.mp final
    obtain ⟨_, done, _⟩ := Concept.stable_rebind c first
    obtain ⟨_, others⟩ := Concept.stable_rebindAll cs rest
    rw [Concept.rebindAll, done, others]
    exact ⟨_, rfl⟩

theorem Lineage.stable_rebindOption (lineage : Option Lineage)
    (lasts : Lasting ((lineage.map Lineage.operands).getD [])
      ((lineage.map Lineage.calls).getD [])) :
    ∃ bound, Lineage.rebindOption resolve lineage = .ok bound ∧
      bound.map Lineage.datatype = lineage.map Lineage.datatype := by
  cases lineage with
  | none =>
    rw [Lineage.rebindOption]
    exact ⟨_, rfl, rfl⟩
  | some lineage =>
    obtain ⟨bound, done, types⟩ := Lineage.stable_rebind lineage lasts
    rw [Lineage.rebindOption, done]
    exact ⟨_, rfl, congrArg some types⟩

theorem Lineage.stable_rebind (lineage : Lineage)
    (lasts : Lasting lineage.operands lineage.calls) :
    ∃ bound, lineage.rebind resolve = .ok bound ∧ bound.datatype = lineage.datatype := by
  cases lineage with
  | call f =>
    obtain ⟨_, done, types⟩ := Call.stable_rebind f lasts
    rw [Lineage.rebind, done]
    exact ⟨_, rfl, types⟩
  | window w =>
    obtain ⟨_, done, types⟩ := Window.stable_rebind w lasts.1
    rw [Lineage.rebind, done]
    exact ⟨_, rfl, types⟩
  | filter content condition =>
    obtain ⟨first, rest⟩ := List.forall_mem_cons.mp lasts.1
    obtain ⟨_, done, types⟩ := Concept.stable_rebind content first
    obtain ⟨_, others⟩ := Condition.stable_rebind condition ⟨rest, lasts.2⟩
    rw [Lineage.rebind, done, others]
    exact ⟨_, rfl, types⟩
  | aggregate a =>
    obtain ⟨_, done, types⟩ := Aggregate.stable_rebind a lasts
    rw [Lineage.rebind, done]
    exact ⟨_, rfl, types⟩
  | multiSelect multi =>
    rw [Lineage.rebind]
    exact ⟨_, rfl, rfl⟩

theorem Call.stable_rebind (f : Call) (lasts : Lasting f.reads f.calls) :
    ∃ bound, f.rebind resolve = .ok bound ∧ bound.datatype = f.datatype := by
  obtain ⟨settled, inside⟩ := Pervades.call_iff.mp lasts
  obtain ⟨operator, arguments, datatype, purpose⟩ := f
  obtain ⟨_, done, checked, types⟩ := Expr.stable_rebindAll arguments inside
  rw [Call.rebind, done]
  exact Call.stable_rebuild settled checked types

theorem Aggregate.stable_rebind (a : Aggregate) (lasts : Lasting a.reads a.calls) :
    ∃ bound, a.rebind resolve = .ok bound ∧ bound.call.datatype = a.call.datatype := by
  obtain ⟨call, groupBy⟩ := a
  rw [Aggregate.reads, Aggregate.calls] at lasts
  obtain ⟨reads, groups⟩ := List.forall_mem_append.mp lasts.1
  obtain ⟨_, done, types⟩ := Call.stable_rebind call ⟨reads, lasts.2⟩
  obtain ⟨_, others⟩ := Concept.stable_rebindAll groupBy groups
  rw [Aggregate.rebind, done, others]
  exact ⟨_, rfl, types⟩

theorem Expr.stable_rebind (e : Expr) (lasts : Lasting e.reads e.calls) :
    ∃ bound, e.rebind resolve = .ok bound ∧ bound.checkedType? = e.checkedType? ∧
      bound.datatype? = e.datatype? := by
  cases e with
  | concept c =>
    rw [Expr.reads] at lasts
    obtain ⟨_, done, types⟩ := Concept.stable_rebind c (List.forall_mem_singleton.mp lasts.1)
    rw [Expr.rebind, done]
    exact ⟨_, rfl, congrArg some types, congrArg some types⟩
  | literal l =>
    rw [Expr.rebind]
    exact ⟨_, rfl, rfl, rfl⟩
  | call f =>
    rw [Expr.reads, Expr.calls] at lasts
    obtain ⟨_, done, types⟩ := Call.stable_rebind f lasts
    rw [Expr.rebind, done]
    exact ⟨_, rfl, congrArg some types, congrArg some types⟩
  | aggregate a =>
    rw [Expr.reads, Expr.calls] at lasts
    obtain ⟨_, done, types⟩ := Aggregate.stable_rebind a lasts
    rw [Expr.rebind, done]
    exact ⟨_, rfl, congrArg some types, congrArg some types⟩
  | case branches otherwise =>
    rw [Expr.reads, Expr.calls] at lasts
    obtain ⟨arms, last⟩ := Pervades.append_iff.mp lasts
    obtain ⟨bound, done, types⟩ := Branch.stable_rebindAll branches arms
    obtain ⟨_, others⟩ := Expr.stable_rebindOption otherwise last
    rw [Expr.rebind, done, others]
    refine ⟨_, rfl, rfl, ?_⟩
    rw [Expr.datatype?_case, Expr.datatype?_case, types]
  | datatype t =>
    rw [Expr.rebind]
    exact ⟨_, rfl, rfl, rfl⟩
  | list items =>
    rw [Expr.rebind]
    exact ⟨_, rfl, rfl, rfl⟩

theorem Expr.stable_rebindAll (es : List Expr)
    (lasts : Lasting (Expr.readsAll es) (Expr.callsAll es)) :
    ∃ bound, Expr.rebindAll resolve es = .ok bound ∧
      bound.map (·.checkedType?) = es.map (·.checkedType?) ∧
      bound.map (·.datatype?) = es.map (·.datatype?) := by
  cases es with
  | nil =>
    rw [Expr.rebindAll]
    exact ⟨_, rfl, rfl, rfl⟩
  | cons e es =>
    rw [Expr.readsAll, Expr.callsAll] at lasts
    obtain ⟨first, rest⟩ := Pervades.append_iff.mp lasts
    obtain ⟨_, done, checked, types⟩ := Expr.stable_rebind e first
    obtain ⟨_, others, allChecked, allTypes⟩ := Expr.stable_rebindAll es rest
    rw [Expr.rebindAll, done, others]
    exact ⟨_, rfl, congrArg₂ List.cons checked allChecked, congrArg₂ List.cons types allTypes⟩

theorem Expr.stable_rebindOption (e : Option Expr)
    (lasts : Lasting (Expr.readsOption e) (Expr.callsOption e)) :
    ∃ bound, Expr.rebindOption resolve e = .ok bound := by
  cases e with
  | none =>
    rw [Expr.rebindOption]
    exact ⟨_, rfl⟩
  | some e =>
    rw [Expr.readsOption, Expr.callsOption] at lasts
    obtain ⟨_, done, _⟩ := Expr.stable_rebind e lasts
    rw [Expr.rebindOption, done]
    exact ⟨_, rfl⟩

theorem Branch.stable_rebind (b : Branch) (lasts : Lasting b.reads b.calls) :
    ∃ bound, b.rebind resolve = .ok bound ∧ bound.result.datatype? = b.result.datatype? := by
  obtain ⟨condition, result⟩ := b
  rw [Branch.reads, Branch.calls] at lasts
  obtain ⟨test, value⟩ := Pervades.append_iff.mp lasts
  obtain ⟨_, others⟩ := Condition.stable_rebind condition test
  obtain ⟨_, done, _, types⟩ := Expr.stable_rebind result value
  rw [Branch.rebind, others, done]
  exact ⟨_, rfl, types⟩

theorem Branch.stable_rebindAll (bs : List Branch)
    (lasts : Lasting (Branch.readsAll bs) (Branch.callsAll bs)) :
    ∃ bound, Branch.rebindAll resolve bs = .ok bound ∧
      (bound.head?.bind fun b => b.result.datatype?) =
        bs.head?.bind fun b => b.result.datatype? := by
  cases bs with
  | nil =>
    rw [Branch.rebindAll]
    exact ⟨_, rfl, rfl⟩
  | cons b bs =>
    rw [Branch.readsAll, Branch.callsAll] at lasts
    obtain ⟨first, rest⟩ := Pervades.append_iff.mp lasts
    obtain ⟨_, done, types⟩ := Branch.stable_rebind b first
    obtain ⟨_, others, _⟩ := Branch.stable_rebindAll bs rest
    rw [Branch.rebindAll, done, others]
    exact ⟨_, rfl, types⟩

theorem Condition.stable_rebind (condition : Condition)
    (lasts : Lasting condition.reads condition.calls) :
    ∃ bound, condition.rebind resolve = .ok bound := by
  cases condition with
  | compare left right comparator =>
    rw [Condition.reads, Condition.calls] at lasts
    obtain ⟨first, second⟩ := Pervades.append_iff.mp lasts
    obtain ⟨_, done, _⟩ := Expr.stable_rebind left first
    obtain ⟨_, others, _⟩ := Expr.stable_rebind right second
    rw [Condition.rebind, done, others]
    exact ⟨_, rfl⟩
  | combine left right connective =>
    rw [Condition.reads, Condition.calls] at lasts
    obtain ⟨first, second⟩ := Pervades.append_iff.mp lasts
    obtain ⟨_, done⟩ := Condition.stable_rebind left first
    obtain ⟨_, others⟩ := Condition.stable_rebind right second
    rw [Condition.rebind, done, others]
    exact ⟨_, rfl⟩
  | parenthesis inner =>
    rw [Condition.reads, Condition.calls] at lasts
    obtain ⟨_, done⟩ := Condition.stable_rebind inner lasts
    rw [Condition.rebind, done]
    exact ⟨_, rfl⟩

theorem Window.stable_rebind (w : Window)
    (final : ∀ c ∈ w.reads, c.Throughout Concept.Final) :
    ∃ bound, w.rebind resolve = .ok bound ∧
      (Lineage.window bound).datatype = (Lineage.window w).datatype := by
  obtain ⟨kind, content, orderBy, partitions, index⟩ := w
  obtain ⟨before, ordered⟩ := List.forall_mem_append.mp final
  obtain ⟨first, others⟩ := List.forall_mem_cons.mp before
  obtain ⟨_, done, types⟩ := Concept.stable_rebind content first
  obtain ⟨_, items⟩ := OrderItem.stable_rebindAll orderBy ordered
  obtain ⟨_, groups⟩ := Concept.stable_rebindAll partitions others
  rw [Window.rebind, done, items, groups]
  refine ⟨_, rfl, ?_⟩
  cases kind with
  | rowNumber | rank => rfl
  | lag | lead => exact types

theorem OrderItem.stable_rebindAll (items : List OrderItem)
    (final : ∀ c ∈ items.map (·.concept), c.Throughout Concept.Final) :
    ∃ bound, OrderItem.rebindAll resolve items = .ok bound := by
  cases items with
  | nil =>
    rw [OrderItem.rebindAll]
    exact ⟨_, rfl⟩
  | cons item items =>
    obtain ⟨first, rest⟩ := List.forall_mem_cons.mp final
    obtain ⟨_, done⟩ := OrderItem.stable_rebind item first
    obtain ⟨_, others⟩ := OrderItem.stable_rebindAll items rest
    rw [OrderItem.rebindAll, done, others]
    exact ⟨_, rfl⟩

theorem OrderItem.stable_rebind (item : OrderItem)
    (final : item.concept.Throughout Concept.Final) :
    ∃ bound, item.rebind resolve = .ok bound := by
  obtain ⟨concept, direction⟩ := item
  obtain ⟨_, done, _⟩ := Concept.stable_rebind concept final
  rw [OrderItem.rebind, done]
  exact ⟨_, rfl⟩

end

end Stability

end SemanticQuery
