/-!
Computations that may fail, taken apart where they succeed.
-/

namespace SemanticQuery

theorem bind_eq_ok {x : Except ε α} {f : α → Except ε β} {b : β} :
    (x >>= f) = .ok b ↔ ∃ a, x = .ok a ∧ f a = .ok b := by
  cases x with
  | error e =>
    constructor
    · intro done
      cases done
    · rintro ⟨a, made, _⟩
      cases made
  | ok a =>
    refine ⟨fun done => ⟨a, rfl, done⟩, ?_⟩
    rintro ⟨other, made, done⟩
    cases made
    exact done

@[simp] theorem pure_eq_ok {a b : α} : (pure a : Except ε α) = .ok b ↔ a = b :=
  ⟨fun same => Except.ok.inj same, fun same => congrArg Except.ok same⟩

/-- A run over a list succeeds if it does at every item. -/
theorem mapM_eq_ok {f : α → Except ε β} {as : List α} {bs : List β} :
    as.mapM f = .ok bs ↔ as.map f = bs.map .ok := by
  induction as generalizing bs with
  | nil => cases bs <;> simp
  | cons a as ih =>
    rw [List.mapM_cons]
    simp only [bind_eq_ok, pure_eq_ok, ih, List.map_cons]
    constructor
    · rintro ⟨b, first, rest, done, rfl⟩
      rw [first, done, List.map_cons]
    · intro same
      cases bs with
      | nil => cases same
      | cons b bs =>
        obtain ⟨first, rest⟩ := List.cons.inj same
        exact ⟨b, first, bs, rest, rfl⟩

theorem exists_of_mem_mapM {f : α → Except ε β} {as : List α} {bs : List β}
    (done : as.mapM f = .ok bs) {b : β} (member : b ∈ bs) : ∃ a ∈ as, f a = .ok b := by
  have listed : Except.ok b ∈ as.map f := by
    rw [mapM_eq_ok.mp done]
    exact List.mem_map_of_mem member
  exact List.mem_map.mp listed

/-- What every step keeps, the run over a list keeps. -/
theorem map_eq_of_mapM {f : α → Except ε β} {view : β → γ} {before : α → γ}
    (keeps : ∀ a b, f a = .ok b → view b = before a) {as : List α} {bs : List β}
    (done : as.mapM f = .ok bs) : bs.map view = as.map before := by
  induction as generalizing bs with
  | nil =>
    cases done
    rfl
  | cons a as ih =>
    rw [List.mapM_cons] at done
    obtain ⟨b, first, done⟩ := bind_eq_ok.mp done
    obtain ⟨rest, others, done⟩ := bind_eq_ok.mp done
    cases done
    rw [List.map_cons, List.map_cons, keeps a b first, ih others]

/-- A run over a list succeeds if every step can. -/
theorem exists_mapM {f : α → Except ε β} {as : List α} (steps : ∀ a ∈ as, ∃ b, f a = .ok b) :
    ∃ bs, as.mapM f = .ok bs := by
  induction as with
  | nil => exact ⟨[], rfl⟩
  | cons a as ih =>
    obtain ⟨b, first⟩ := steps a List.mem_cons_self
    obtain ⟨bs, rest⟩ := ih fun other member => steps other (List.mem_cons_of_mem _ member)
    refine ⟨b :: bs, ?_⟩
    rw [List.mapM_cons, first, rest]
    rfl

/-- What every step keeps, a fold keeps. -/
theorem foldlM_keeps {f : β → α → Except ε β} (holds : β → Prop) {as : List α} {b c : β}
    (step : ∀ b, ∀ a ∈ as, ∀ c, holds b → f b a = .ok c → holds c) (start : holds b)
    (done : as.foldlM f b = .ok c) : holds c := by
  induction as generalizing b with
  | nil =>
    cases done
    exact start
  | cons a as ih =>
    rw [List.foldlM_cons] at done
    obtain ⟨next, first, rest⟩ := bind_eq_ok.mp done
    exact ih (fun b a member => step b a (List.mem_cons_of_mem _ member))
      (step b a List.mem_cons_self next start first) rest

/-- A computation whose result, if it has one, is as stated, and that fails only as stated. -/
def Settles (x : Except ε α) (post : α → Prop) (fails : ε → Prop) : Prop :=
  match x with
  | .ok a => post a
  | .error e => fails e

instance {x : Except ε α} {post : α → Prop} {fails : ε → Prop} [∀ a, Decidable (post a)]
    [∀ e, Decidable (fails e)] : Decidable (Settles x post fails) :=
  match x with
  | .ok a => inferInstanceAs (Decidable (post a))
  | .error e => inferInstanceAs (Decidable (fails e))

namespace Settles

variable {x : Except ε α} {post : α → Prop} {fails : ε → Prop}

theorem ok {a : α} (settles : Settles x post fails) (done : x = .ok a) : post a := by
  rw [done] at settles
  exact settles

theorem error {e : ε} (settles : Settles x post fails) (failed : x = .error e) : fails e := by
  rw [failed] at settles
  exact settles

theorem exists_ok (settles : Settles x post fun _ => False) : ∃ a, x = .ok a ∧ post a := by
  cases x with
  | ok a => exact ⟨a, rfl, settles⟩
  | error e => exact settles.elim

theorem exists_error (settles : Settles x (fun _ => False) fails) : ∃ e, x = .error e ∧ fails e := by
  cases x with
  | ok a => exact settles.elim
  | error e => exact ⟨e, rfl, settles⟩

theorem weaken {weaker : α → Prop} {others : ε → Prop} (settles : Settles x post fails)
    (implied : ∀ a, post a → weaker a) (also : ∀ e, fails e → others e) :
    Settles x weaker others := by
  cases x with
  | ok a => exact implied a settles
  | error e => exact also e settles

theorem bind {f : α → Except ε β} {after : β → Prop} (first : Settles x post fails)
    (rest : ∀ a, post a → Settles (f a) after fails) : Settles (x >>= f) after fails := by
  cases x with
  | ok a => exact rest a first
  | error e => exact first

theorem mapM {f : α → Except ε β} {each : β → Prop} {as : List α}
    (steps : ∀ a ∈ as, Settles (f a) each fails) :
    Settles (as.mapM f) (fun bs => ∀ b ∈ bs, each b) fails := by
  induction as with
  | nil =>
    intro b member
    cases member
  | cons a as ih =>
    rw [List.mapM_cons]
    refine (steps a List.mem_cons_self).bind fun b first => ?_
    refine (ih fun other member => steps other (List.mem_cons_of_mem _ member)).bind fun bs rest => ?_
    intro other member
    rcases List.mem_cons.mp member with rfl | member
    · exact first
    · exact rest other member

theorem foldlM {f : β → α → Except ε β} {holds : β → Prop} {as : List α} {b : β}
    (step : ∀ b, ∀ a ∈ as, holds b → Settles (f b a) holds fails) (start : holds b) :
    Settles (as.foldlM f b) holds fails := by
  induction as generalizing b with
  | nil => exact start
  | cons a as ih =>
    rw [List.foldlM_cons]
    refine (step b a List.mem_cons_self start).bind fun next held => ?_
    exact ih (fun b other member => step b other (List.mem_cons_of_mem _ member)) held

end Settles

end SemanticQuery
