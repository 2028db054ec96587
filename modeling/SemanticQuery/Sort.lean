/-!
Sorting by insertion. Items of which each may precede the other stay in their order.
-/

namespace SemanticQuery

variable {precedes : α → α → Bool} {items : List α} {a : α}

/-- Puts an item before the first that it may precede. -/
def insertBy (precedes : α → α → Bool) (a : α) : List α → List α
  | [] => [a]
  | b :: rest => if precedes a b then a :: b :: rest else b :: insertBy precedes a rest

def sortBy (precedes : α → α → Bool) : List α → List α
  | [] => []
  | a :: rest => insertBy precedes a (sortBy precedes rest)

theorem perm_insertBy : (insertBy precedes a items).Perm (a :: items) := by
  induction items with
  | nil => exact .refl _
  | cons b rest ih =>
    rw [insertBy]
    split
    · exact .refl _
    · exact (ih.cons b).trans (.swap a b rest)

theorem perm_sortBy : (sortBy precedes items).Perm items := by
  induction items with
  | nil => exact .refl _
  | cons a rest ih => exact perm_insertBy.trans (ih.cons a)

section Ordered

variable (total : ∀ a b, precedes a b = true ∨ precedes b a = true)
  (trans : ∀ a b c, precedes a b = true → precedes b c = true → precedes a c = true)

include total trans

theorem pairwise_insertBy (sorted : items.Pairwise fun a b => precedes a b = true) :
    (insertBy precedes a items).Pairwise fun a b => precedes a b = true := by
  induction items with
  | nil => simp [insertBy]
  | cons b rest ih =>
    obtain ⟨first, later⟩ := List.pairwise_cons.mp sorted
    rw [insertBy]
    split
    · next before =>
      apply List.pairwise_cons.mpr ⟨?_, sorted⟩
      intro c member
      rcases List.mem_cons.mp member with rfl | member
      · exact before
      · exact trans a b c before (first c member)
    · next after =>
      apply List.pairwise_cons.mpr ⟨?_, ih later⟩
      intro c member
      rcases List.mem_cons.mp (perm_insertBy.mem_iff.mp member) with rfl | member
      · exact (total c b).resolve_left after
      · exact first c member

/-- In a sorted list each item may precede all later ones. -/
theorem pairwise_sortBy (items : List α) :
    (sortBy precedes items).Pairwise fun a b => precedes a b = true := by
  induction items with
  | nil => exact .nil
  | cons a rest ih => exact pairwise_insertBy total trans ih

end Ordered

/-- Items each of which may precede all later ones are sorted already. -/
theorem sortBy_eq_self (sorted : items.Pairwise fun a b => precedes a b = true) :
    sortBy precedes items = items := by
  induction items with
  | nil => rfl
  | cons a rest ih =>
    obtain ⟨first, later⟩ := List.pairwise_cons.mp sorted
    rw [sortBy, ih later]
    cases rest with
    | nil => rfl
    | cons b rest => rw [insertBy, if_pos (first b List.mem_cons_self)]

end SemanticQuery
