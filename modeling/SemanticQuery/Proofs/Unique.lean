import SemanticQuery.Concept.Basic

/-!
Lists in which each name stands once: which items are kept, and that every name is still there.
-/

namespace SemanticQuery

namespace Names

theorem mem_of_mem_uniqueFrom {name : α → String} {seen : List String} {items : List α} {a : α}
    (member : a ∈ uniqueFrom name seen items) : a ∈ items ∧ name a ∉ seen := by
  induction items generalizing seen with
  | nil => simp [uniqueFrom] at member
  | cons first rest ih =>
    rw [uniqueFrom] at member
    split at member
    · exact ⟨List.mem_cons_of_mem _ (ih member).1, (ih member).2⟩
    · next fresh =>
      rcases List.mem_cons.mp member with rfl | member
      · exact ⟨List.mem_cons_self, by simpa using fresh⟩
      · obtain ⟨inRest, unseen⟩ := ih member
        exact ⟨List.mem_cons_of_mem _ inRest, fun h => unseen (List.mem_cons_of_mem _ h)⟩

theorem mem_of_mem_uniqueOn {name : α → String} {items : List α} {a : α}
    (member : a ∈ uniqueOn name items) : a ∈ items := (mem_of_mem_uniqueFrom member).1

theorem exists_mem_uniqueFrom {name : α → String} {seen : List String} {items : List α} {a : α}
    (member : a ∈ items) (unseen : name a ∉ seen) :
    ∃ b ∈ uniqueFrom name seen items, name b = name a := by
  induction items generalizing seen with
  | nil => simp at member
  | cons first rest ih =>
    rw [uniqueFrom]
    split
    · next held =>
      rcases List.mem_cons.mp member with rfl | member
      · exact absurd (by simpa using held) unseen
      · exact ih member unseen
    · by_cases same : name a = name first
      · exact ⟨first, List.mem_cons_self, same.symm⟩
      · rcases List.mem_cons.mp member with rfl | member
        · exact absurd rfl same
        · have stillUnseen : name a ∉ name first :: seen := by simp [same, unseen]
          obtain ⟨b, kept, named⟩ := ih member stillUnseen
          exact ⟨b, List.mem_cons_of_mem _ kept, named⟩

/-- No name is lost. -/
theorem exists_mem_uniqueOn {name : α → String} {items : List α} {a : α} (member : a ∈ items) :
    ∃ b ∈ uniqueOn name items, name b = name a :=
  exists_mem_uniqueFrom member (by simp)

theorem uniqueFrom_map (name : β → String) (g : α → β) (seen : List String) (items : List α) :
    uniqueFrom name seen (items.map g) = (uniqueFrom (fun a => name (g a)) seen items).map g := by
  induction items generalizing seen with
  | nil => rfl
  | cons first rest ih =>
    simp only [List.map_cons, uniqueFrom]
    split
    · exact ih seen
    · rw [List.map_cons, ih]

theorem uniqueOn_map (name : β → String) (g : α → β) (items : List α) :
    uniqueOn name (items.map g) = (uniqueOn (fun a => name (g a)) items).map g :=
  uniqueFrom_map name g [] items

theorem nodup_uniqueFrom (name : α → String) (seen : List String) (items : List α) :
    ((uniqueFrom name seen items).map name).Nodup := by
  induction items generalizing seen with
  | nil => simp [uniqueFrom]
  | cons first rest ih =>
    rw [uniqueFrom]
    split
    · exact ih seen
    · rw [List.map_cons, List.nodup_cons]
      refine ⟨?_, ih _⟩
      intro member
      obtain ⟨b, kept, named⟩ := List.mem_map.mp member
      exact (mem_of_mem_uniqueFrom kept).2 (named ▸ List.mem_cons_self)

theorem uniqueFrom_eq_self {name : α → String} {seen : List String} {items : List α}
    (distinct : (items.map name).Nodup) (unseen : ∀ a ∈ items, name a ∉ seen) :
    uniqueFrom name seen items = items := by
  induction items generalizing seen with
  | nil => rfl
  | cons first rest ih =>
    obtain ⟨absent, tail⟩ := List.nodup_cons.mp distinct
    have fresh : ¬ seen.contains (name first) = true := by
      simpa using unseen first List.mem_cons_self
    rw [uniqueFrom, if_neg fresh, ih tail]
    intro a member held
    rcases List.mem_cons.mp held with same | held
    · exact absent (same ▸ List.mem_map_of_mem member)
    · exact unseen a (List.mem_cons_of_mem _ member) held

/-- An item is kept if it is the first of its name, and its name was not seen before. -/
theorem mem_uniqueFrom_iff {name : α → String} {seen : List String} {items : List α} {a : α} :
    a ∈ uniqueFrom name seen items ↔
      name a ∉ seen ∧ items.find? (fun b => name b == name a) = some a := by
  induction items generalizing seen with
  | nil => simp [uniqueFrom]
  | cons first rest ih =>
    rw [uniqueFrom]
    by_cases same : name first = name a
    · have found : (first :: rest).find? (fun b => name b == name a) = some first := by simp [same]
      rw [found, same]
      by_cases held : name a ∈ seen
      · rw [if_pos (List.contains_iff_mem.mpr held), ih]
        simp [held]
      · rw [if_neg (mt List.contains_iff_mem.mp held), List.mem_cons, ih]
        simp [held, eq_comm]
    · have passed : (first :: rest).find? (fun b => name b == name a) =
          rest.find? (fun b => name b == name a) := by simp [same]
      have other : a ≠ first := fun equal => same (congrArg name equal).symm
      rw [passed]
      split
      · exact ih
      · rw [List.mem_cons, ih, List.mem_cons, not_or]
        simp [other, Ne.symm same]

theorem mem_uniqueOn_iff {name : α → String} {items : List α} {a : α} :
    a ∈ uniqueOn name items ↔ items.find? (fun b => name b == name a) = some a := by
  rw [uniqueOn, mem_uniqueFrom_iff]
  simp

/-- Items are kept in the order of the first places of their names. -/
theorem pairwise_uniqueFrom (name : α → String) (seen : List String) (items : List α) :
    (uniqueFrom name seen items).Pairwise fun a b =>
      (items.map name).idxOf (name a) < (items.map name).idxOf (name b) := by
  induction items generalizing seen with
  | nil => exact .nil
  | cons first rest ih =>
    have later {seen : List String} {a : α} (fresh : name first ∈ seen)
        (member : a ∈ uniqueFrom name seen rest) : ((first :: rest).map name).idxOf (name a) =
          (rest.map name).idxOf (name a) + 1 := by
      have different : name first ≠ name a :=
        fun same => (mem_of_mem_uniqueFrom member).2 (same ▸ fresh)
      rw [List.map_cons, List.idxOf_cons, beq_eq_false_iff_ne.mpr different, cond_false]
    have shifted {seen : List String} (fresh : name first ∈ seen) :
        (uniqueFrom name seen rest).Pairwise fun a b =>
          ((first :: rest).map name).idxOf (name a) < ((first :: rest).map name).idxOf (name b) := by
      refine (ih seen).imp_of_mem fun {a b} left right before => ?_
      rw [later fresh left, later fresh right]
      exact Nat.succ_lt_succ before
    rw [uniqueFrom]
    split
    · next held => exact shifted (List.contains_iff_mem.mp held)
    · refine List.pairwise_cons.mpr ⟨fun b member => ?_, shifted List.mem_cons_self⟩
      rw [later List.mem_cons_self member, List.map_cons, List.idxOf_cons_self]
      exact Nat.succ_pos _

end Names

namespace Concept

theorem mem_of_mem_unique {cs : List Concept} {c : Concept} (member : c ∈ unique cs) : c ∈ cs :=
  Names.mem_of_mem_uniqueOn member

@[simp] theorem mem_addresses_append {cs ds : List Concept} {address : String} :
    address ∈ addresses (cs ++ ds) ↔ address ∈ addresses cs ∨ address ∈ addresses ds := by
  simp [addresses]

/-- Leaving out repetitions keeps the addresses. -/
@[simp] theorem mem_addresses_unique {cs : List Concept} {address : String} :
    address ∈ addresses (unique cs) ↔ address ∈ addresses cs := by
  simp only [addresses, List.mem_map]
  constructor
  · rintro ⟨c, member, rfl⟩
    exact ⟨c, mem_of_mem_unique member, rfl⟩
  · rintro ⟨c, member, rfl⟩
    exact Names.exists_mem_uniqueOn member

theorem nodup_addresses_unique (cs : List Concept) : (addresses (unique cs)).Nodup :=
  Names.nodup_uniqueFrom address [] cs

/-- Concepts of different addresses are all kept. -/
theorem unique_eq_self {cs : List Concept} (distinct : (addresses cs).Nodup) : unique cs = cs :=
  Names.uniqueFrom_eq_self distinct (by simp)

theorem unique_unique (cs : List Concept) : unique (unique cs) = unique cs :=
  unique_eq_self (nodup_addresses_unique cs)

end Concept

end SemanticQuery
