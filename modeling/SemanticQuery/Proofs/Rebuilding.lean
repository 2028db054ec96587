import SemanticQuery.Proofs.Calls

/-!
What binding does to calls. Each is made anew over bound arguments, whatever it was like before, so
that all calls of a bound concept fit their signatures. A declared type survives this; a declared
purpose does not.
-/

namespace SemanticQuery

namespace Call

/-- A call over arguments that may have been bound since. -/
def Rebuilt (f g : Call) : Prop :=
  Call.rebuild f.operator f.arguments g.arguments f.datatype = .ok g

theorem rebuild_eq_ok {operator : Operator} {old new : List Expr} {datatype : DataType} {g : Call}
    (done : Call.rebuild operator old new datatype = .ok g) :
    g.operator = operator ∧ g.arguments = new ∧ Fits operator new := by
  unfold Call.rebuild at done
  obtain ⟨rebuilt, made, done⟩ := bind_eq_ok.mp done
  obtain ⟨fits, rfl⟩ := of_eq_ok_iff.mp made
  split at done
  · cases done
    exact ⟨rfl, rfl, fits⟩
  · obtain ⟨plain, _, done⟩ := bind_eq_ok.mp done
    rw [← pure_eq_ok.mp done]
    split
    · exact ⟨rfl, rfl, fits⟩
    · exact ⟨rfl, rfl, fits⟩

theorem Rebuilt.fits {f g : Call} (rebuilt : f.Rebuilt g) : Fits g.operator g.arguments := by
  obtain ⟨operator, _, fits⟩ := rebuild_eq_ok rebuilt
  exact operator ▸ fits

theorem Rebuilt.forall_fits {fs gs : List Call} (rebuilt : List.Forall₂ Rebuilt fs gs) :
    ∀ g ∈ gs, Fits g.operator g.arguments := by
  induction rebuilt with
  | nil => exact List.forall_mem_nil _
  | cons first _ ih => exact List.forall_mem_cons.mpr ⟨first.fits, ih⟩

/-- Over the same arguments a declared type is kept, and a declared purpose is not. -/
theorem rebuild_self {operator : Operator} {arguments : List Expr} (fits : Fits operator arguments)
    (datatype : DataType) :
    Call.rebuild operator arguments arguments datatype =
      .ok ⟨operator, arguments,
        if datatype = .unknown then resultType operator arguments else datatype,
        resultPurpose operator arguments⟩ := by
  have made := of_eq_ok_iff.mpr ⟨fits, rfl⟩
  unfold Call.rebuild
  rw [made]
  refine bind_eq_ok.mpr ⟨_, rfl, ?_⟩
  by_cases unknown : datatype = .unknown
  · rw [if_pos (by simp [unknown]), if_pos unknown]
    rfl
  · rw [if_neg (by simpa using unknown), if_neg unknown]
    refine bind_eq_ok.mpr ⟨_, rfl, pure_eq_ok.mpr ?_⟩
    split
    · next same => rw [← eq_of_beq same]
    · rfl

theorem rebuilt_self_iff {f : Call} :
    f.Rebuilt f ↔ Fits f.operator f.arguments ∧
      f.purpose = resultPurpose f.operator f.arguments ∧
      (f.datatype = .unknown → resultType f.operator f.arguments = .unknown) := by
  constructor
  · intro rebuilt
    have same := Except.ok.inj ((rebuild_self rebuilt.fits f.datatype).symm.trans rebuilt)
    refine ⟨rebuilt.fits, (congrArg Call.purpose same).symm, fun unknown => ?_⟩
    have types := congrArg Call.datatype same
    dsimp only at types
    rwa [if_pos unknown, unknown] at types
  · rintro ⟨fits, natural, vague⟩
    refine (rebuild_self fits f.datatype).trans (congrArg Except.ok ?_)
    have kept : (if f.datatype = .unknown then resultType f.operator f.arguments
        else f.datatype) = f.datatype := by
      split
      · next unknown => rw [vague unknown, unknown]
      · rfl
    rw [← natural, kept]
    cases f
    rfl

end Call

section Rebinding

variable {resolve : Resolver}

/-- A computation that makes anew the calls that are written in something. -/
def Remakes (fs : List Call) (written : α → List Call) (x : Except PlanError α) : Prop :=
  Settles x (fun a => List.Forall₂ Call.Rebuilt fs (written a)) fun _ => True

namespace Remakes

theorem nil {written : α → List Call} {a : α} (none : written a = []) :
    Remakes [] written (pure a) := by
  change List.Forall₂ _ _ (written a)
  rw [none]
  exact .nil

theorem map {fs : List Call} {written : α → List Call} {whole : β → List Call}
    {x : Except PlanError α} {f : α → β} (first : Remakes fs written x)
    (same : ∀ a, whole (f a) = written a) : Remakes fs whole (x >>= fun a => pure (f a)) := by
  refine Settles.bind first fun a rebuilt => ?_
  change List.Forall₂ _ _ (whole (f a))
  rwa [same]

theorem both {fs gs : List Call} {left : α → List Call} {right : β → List Call}
    {whole : γ → List Call} {x : Except PlanError α} {y : Except PlanError β} {f : α → β → γ}
    (first : Remakes fs left x) (second : Remakes gs right y)
    (joined : ∀ a b, whole (f a b) = left a ++ right b) :
    Remakes (fs ++ gs) whole (x >>= fun a => y >>= fun b => pure (f a b)) := by
  refine Settles.bind first fun a rebuilt => Settles.bind second fun b also => ?_
  change List.Forall₂ _ _ (whole (f a b))
  rw [joined]
  exact List.rel_append rebuilt also

/-- Where a concept is read, its calls do not count. -/
theorem after {fs : List Call} {whole : β → List Call} {x : Except PlanError α}
    {y : α → Except PlanError β} (rest : ∀ a, Remakes fs whole (y a)) :
    Remakes fs whole (x >>= y) := by
  cases x with
  | error e => trivial
  | ok a => exact rest a

end Remakes

mutual

theorem Expr.remakes_rebind (e : Expr) : Remakes e.calls Expr.calls (e.rebind resolve) := by
  cases e with
  | concept c =>
    rw [Expr.rebind, Expr.calls]
    exact .after fun bound => .nil (by rw [Expr.calls])
  | literal l =>
    rw [Expr.rebind, Expr.calls]
    exact .nil (by rw [Expr.calls])
  | call f =>
    rw [Expr.rebind, Expr.calls]
    exact (Call.remakes_rebind f).map fun _ => by rw [Expr.calls]
  | aggregate a =>
    rw [Expr.rebind, Expr.calls]
    exact (Aggregate.remakes_rebind a).map fun _ => by rw [Expr.calls]
  | case branches otherwise =>
    rw [Expr.rebind, Expr.calls]
    exact (Branch.remakes_rebindAll branches).both (Expr.remakes_rebindOption otherwise)
      fun _ _ => by rw [Expr.calls]
  | datatype t =>
    rw [Expr.rebind, Expr.calls]
    exact .nil (by rw [Expr.calls])
  | list items =>
    rw [Expr.rebind, Expr.calls]
    exact .nil (by rw [Expr.calls])

theorem Expr.remakes_rebindAll (es : List Expr) :
    Remakes (Expr.callsAll es) Expr.callsAll (Expr.rebindAll resolve es) := by
  cases es with
  | nil =>
    rw [Expr.rebindAll, Expr.callsAll]
    exact .nil (by rw [Expr.callsAll])
  | cons e es =>
    rw [Expr.rebindAll, Expr.callsAll]
    exact (Expr.remakes_rebind e).both (Expr.remakes_rebindAll es) fun _ _ => by rw [Expr.callsAll]

theorem Expr.remakes_rebindOption (e : Option Expr) :
    Remakes (Expr.callsOption e) Expr.callsOption (Expr.rebindOption resolve e) := by
  cases e with
  | none =>
    rw [Expr.rebindOption, Expr.callsOption]
    exact .nil (by rw [Expr.callsOption])
  | some e =>
    rw [Expr.rebindOption, Expr.callsOption]
    exact (Expr.remakes_rebind e).map fun _ => by rw [Expr.callsOption]

theorem Call.remakes_rebind (f : Call) : Remakes f.calls Call.calls (f.rebind resolve) := by
  obtain ⟨operator, arguments, datatype, purpose⟩ := f
  rw [Call.rebind, Call.calls]
  refine Settles.bind (Expr.remakes_rebindAll arguments) fun bound rebuilt => ?_
  cases made : Call.rebuild operator arguments bound datatype with
  | error e => trivial
  | ok g =>
    obtain ⟨_, same, _⟩ := Call.rebuild_eq_ok made
    subst same
    change List.Forall₂ _ _ g.calls
    rw [Call.calls_eq]
    exact .cons made rebuilt

theorem Aggregate.remakes_rebind (a : Aggregate) :
    Remakes a.calls Aggregate.calls (a.rebind resolve) := by
  obtain ⟨call, groupBy⟩ := a
  rw [Aggregate.rebind, Aggregate.calls]
  refine Settles.bind (Call.remakes_rebind call) fun bound rebuilt => ?_
  refine Remakes.after fun groups => ?_
  change List.Forall₂ _ _ (Aggregate.calls ⟨bound, groups⟩)
  rwa [Aggregate.calls]

theorem Branch.remakes_rebind (b : Branch) :
    Remakes b.calls Branch.calls (b.rebind resolve) := by
  obtain ⟨condition, result⟩ := b
  rw [Branch.rebind, Branch.calls]
  exact (Condition.remakes_rebind condition).both (Expr.remakes_rebind result) fun _ _ => by
    rw [Branch.calls]

theorem Branch.remakes_rebindAll (bs : List Branch) :
    Remakes (Branch.callsAll bs) Branch.callsAll (Branch.rebindAll resolve bs) := by
  cases bs with
  | nil =>
    rw [Branch.rebindAll, Branch.callsAll]
    exact .nil (by rw [Branch.callsAll])
  | cons b bs =>
    rw [Branch.rebindAll, Branch.callsAll]
    exact (Branch.remakes_rebind b).both (Branch.remakes_rebindAll bs) fun _ _ => by
      rw [Branch.callsAll]

theorem Condition.remakes_rebind (condition : Condition) :
    Remakes condition.calls Condition.calls (condition.rebind resolve) := by
  cases condition with
  | compare left right comparator =>
    rw [Condition.rebind, Condition.calls]
    exact (Expr.remakes_rebind left).both (Expr.remakes_rebind right) fun _ _ => by
      rw [Condition.calls]
  | combine left right connective =>
    rw [Condition.rebind, Condition.calls]
    exact (Condition.remakes_rebind left).both (Condition.remakes_rebind right) fun _ _ => by
      rw [Condition.calls]
  | parenthesis inner =>
    rw [Condition.rebind, Condition.calls]
    exact (Condition.remakes_rebind inner).map fun _ => by rw [Condition.calls]

end

theorem Lineage.remakes_rebind (lineage : Lineage) :
    Remakes lineage.calls Lineage.calls (lineage.rebind resolve) := by
  cases lineage with
  | call f =>
    rw [Lineage.rebind]
    exact (Call.remakes_rebind f).map fun _ => rfl
  | window w =>
    rw [Lineage.rebind]
    exact .after fun _ => .nil rfl
  | filter content condition =>
    rw [Lineage.rebind]
    exact .after fun _ => (Condition.remakes_rebind condition).map fun _ => rfl
  | aggregate a =>
    rw [Lineage.rebind]
    exact (Aggregate.remakes_rebind a).map fun _ => rfl
  | multiSelect multi =>
    rw [Lineage.rebind]
    exact .nil rfl

/-- The calls of a concept are made anew one by one. -/
theorem Concept.rebuilt_calls {c bound : Concept} (present : c.isPlaceholder = false)
    (done : c.rebind resolve = .ok bound) : List.Forall₂ Call.Rebuilt c.calls bound.calls := by
  obtain ⟨lineage, keys, derivation, _, rfl⟩ := Concept.rebind_present present done
  change List.Forall₂ _ _ ((lineage.map Lineage.calls).getD [])
  rw [Concept.calls]
  cases former : c.lineage with
  | none =>
    rw [former, Lineage.rebindOption] at derivation
    cases derivation
    exact .nil
  | some old =>
    rw [former, Lineage.rebindOption] at derivation
    obtain ⟨made, rebound, same⟩ := bind_eq_ok.mp derivation
    cases same
    exact (Lineage.remakes_rebind old).ok rebound

end Rebinding

end SemanticQuery
