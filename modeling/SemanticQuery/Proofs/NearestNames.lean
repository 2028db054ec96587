import Mathlib.Data.List.Infix
import Mathlib.Data.List.TakeWhile
import SemanticQuery.Catalog.Suggestion

/-!
Suggestions are the nearest names. A row of the distance table holds the edit distances of a part of
the value to all parts of the needle, and no later row falls below its least cell, so that giving up
at a row beyond the limit loses nothing. Hence the names that are suggested are the first three in
the order of their edit distance and their text.
-/

namespace SemanticQuery.Suggestion

/-- The edit distance of two texts: the least number of characters to be deleted, inserted or
replaced in one of them to get the other. -/
def editDistance : List Char → List Char → Nat
  | [], needle => needle.length
  | value, [] => value.length
  | a :: value, b :: needle =>
    min (min (editDistance value (b :: needle) + 1) (editDistance (a :: value) needle + 1))
      (editDistance value needle + if a = b then 0 else 1)
termination_by value needle => value.length + needle.length

@[simp] theorem editDistance_nil_left (needle : List Char) :
    editDistance [] needle = needle.length := by
  simp [editDistance]

@[simp] theorem editDistance_nil_right (value : List Char) :
    editDistance value [] = value.length := by
  cases value <;> simp [editDistance]

theorem editDistance_cons_cons (a b : Char) (value needle : List Char) :
    editDistance (a :: value) (b :: needle) =
      min (min (editDistance value (b :: needle) + 1) (editDistance (a :: value) needle + 1))
        (editDistance value needle + if a = b then 0 else 1) := by
  rw [editDistance]

/-- The distance can be read off the last characters as well as off the first. -/
theorem editDistance_concat (a b : Char) (value needle : List Char) :
    editDistance (value ++ [a]) (needle ++ [b]) =
      min (min (editDistance value (needle ++ [b]) + 1) (editDistance (value ++ [a]) needle + 1))
        (editDistance value needle + if a = b then 0 else 1) := by
  -- both sides are the least of the same sums, those over the other text without either end
  induction value generalizing needle with
  | nil =>
    induction needle with
    | nil => simp [editDistance_cons_cons]
    | cons d needle ih =>
      rw [List.nil_append] at ih ⊢
      rw [List.cons_append, editDistance_cons_cons, editDistance_cons_cons, ih]
      simp only [editDistance_nil_left, List.length_cons, List.length_append, List.length_nil,
        Nat.zero_add, ← Nat.add_min_add_right]
      ac_rfl
  | cons c value outer =>
    induction needle with
    | nil =>
      have first := outer []
      rw [List.nil_append] at first ⊢
      rw [List.cons_append, editDistance_cons_cons, editDistance_cons_cons, first]
      simp only [editDistance_nil_right, List.length_cons, List.length_append, List.length_nil,
        Nat.zero_add, ← Nat.add_min_add_right]
      ac_rfl
    | cons d needle inner =>
      have first := outer (d :: needle)
      rw [List.cons_append] at first inner ⊢
      rw [List.cons_append, editDistance_cons_cons, editDistance_cons_cons, editDistance_cons_cons,
        editDistance_cons_cons, first, inner, outer needle]
      simp only [← Nat.add_min_add_right]
      ac_rfl

/-- The distances of a value to a text and all its extensions by a part of another. -/
def cells (value before rest : List Char) : List Nat :=
  rest.inits.map fun part => editDistance value (before ++ part)

theorem cells_nil (value before : List Char) :
    cells value before [] = [editDistance value before] := by
  simp [cells]

theorem cells_cons (value before rest : List Char) (b : Char) :
    cells value before (b :: rest) =
      editDistance value before :: cells value (before ++ [b]) rest := by
  simp [cells, Function.comp_def]

theorem cells_eq (value before rest : List Char) :
    cells value before rest = editDistance value before :: (cells value before rest).tail := by
  cases rest <;> simp [cells]

theorem cells_nil_left (before rest : List Char) :
    cells [] before rest = List.range' before.length (rest.length + 1) := by
  induction rest generalizing before with
  | nil => simp [cells_nil]
  | cons b rest ih => simp [cells_cons, ih, List.range'_succ]

theorem getLastD_cells (value before rest : List Char) :
    (cells value before rest).getLastD 0 = editDistance value (before ++ rest) := by
  induction rest generalizing before with
  | nil => simp [cells_nil]
  | cons b rest ih =>
    have later := ih (before ++ [b])
    rw [cells_eq] at later
    rw [cells_cons, cells_eq]
    simpa using later

/-- A cell is computed from its three neighbors, as the distance is. -/
theorem nextCells_cells (c : Char) (value before rest : List Char) :
    nextCells c (editDistance (value ++ [c]) before) rest (cells value before rest) =
      (cells (value ++ [c]) before rest).tail := by
  induction rest generalizing before with
  | nil => simp [nextCells, cells_nil]
  | cons b rest ih =>
    have next := ih (before ++ [b])
    have cell := editDistance_concat c b value before
    rw [cells_cons, cells_cons, cells_eq value (before ++ [b]), nextCells, List.tail_cons,
      cells_eq (value ++ [c])]
    simp only [beq_iff_eq, ← cell, ← cells_eq, next]

theorem nextRow_cells (c : Char) (value needle : List Char) :
    nextRow needle c (value.length + 1) (cells value [] needle) =
      cells (value ++ [c]) [] needle := by
  have next := nextCells_cells c value [] needle
  rw [cells_eq (value ++ [c]), ← next]
  simp [nextRow]

/-- Each distance after one more character is at least one of those before it. -/
theorem exists_le_of_concat (c : Char) (value part : List Char) :
    ∃ less, less <+: part ∧ editDistance value less ≤ editDistance (value ++ [c]) part := by
  induction part using List.reverseRecOn with
  | nil => exact ⟨[], List.prefix_refl [], by simp⟩
  | append_singleton part b ih =>
    have cell := editDistance_concat c b value part
    obtain ⟨less, within, atMost⟩ := ih
    have inside : part <+: part ++ [b] := List.prefix_append part [b]
    by_cases above : editDistance value (part ++ [b]) ≤ editDistance (value ++ [c]) (part ++ [b])
    · exact ⟨part ++ [b], List.prefix_refl _, above⟩
    · by_cases diagonal : editDistance value part ≤ editDistance (value ++ [c]) (part ++ [b])
      · exact ⟨part, inside, diagonal⟩
      · exact ⟨less, within.trans inside, by omega⟩

/-- No later row of the table falls below the least cell of a row. -/
theorem exists_le_of_append (value rest part : List Char) :
    ∃ less, less <+: part ∧ editDistance value less ≤ editDistance (value ++ rest) part := by
  induction rest generalizing value with
  | nil => exact ⟨part, List.prefix_refl part, by simp⟩
  | cons c rest ih =>
    obtain ⟨next, within, atMost⟩ := ih (value ++ [c])
    obtain ⟨less, inside, below⟩ := exists_le_of_concat c value next
    refine ⟨less, inside.trans within, below.trans ?_⟩
    simpa using atMost

theorem distanceFrom_cells (limit : Nat) (value rest needle : List Char) :
    distanceFrom needle limit (cells value [] needle) value.length rest =
      min (editDistance (value ++ rest) needle) (limit + 1) := by
  induction rest generalizing value with
  | nil => rw [distanceFrom, getLastD_cells, List.nil_append, List.append_nil]
  | cons c rest ih =>
    have next := ih (value ++ [c])
    simp only [List.append_assoc, List.singleton_append, List.length_append,
      List.length_singleton] at next
    simp only [distanceFrom, nextRow_cells]
    split
    · next beyond =>
      -- the distance is at least a cell of this row, all of which exceed the limit
      obtain ⟨less, within, atMost⟩ := exists_le_of_append (value ++ [c]) rest needle
      have exceeds : limit < editDistance (value ++ [c]) less := by
        simp only [cells, List.all_map, List.all_eq_true, List.mem_inits] at beyond
        simpa using beyond less within
      simp only [List.append_assoc, List.singleton_append] at atMost
      omega
    · exact next

/-- The table gives the edit distance up to the limit, whether or not it is carried to its end. -/
theorem distanceWithin_eq (limit : Nat) (value needle : List Char) :
    distanceWithin limit value needle = min (editDistance value needle) (limit + 1) := by
  have row : List.range (needle.length + 1) = cells [] [] needle := by
    simp [cells_nil_left, List.range_eq_range']
  have carried := distanceFrom_cells limit [] value needle
  rw [distanceWithin, row]
  simpa using carried

section Within

variable {limit : Nat} {value needle : List Char}

theorem distanceWithin_le_iff :
    distanceWithin limit value needle ≤ limit ↔ editDistance value needle ≤ limit := by
  rw [distanceWithin_eq]
  omega

theorem distanceWithin_of_le (near : editDistance value needle ≤ limit) :
    distanceWithin limit value needle = editDistance value needle := by
  rw [distanceWithin_eq]
  omega

end Within

/-- Whether a text is the part of a name after its first dot, or all of a name without a dot. -/
def IsBareName (name : String) (bare : List Char) : Prop :=
  (∃ space, '.' ∉ space ∧ name.toList = space ++ '.' :: bare) ∨
    '.' ∉ name.toList ∧ bare = name.toList

theorem isBareName_bareName (name : String) : IsBareName name (bareName name) := by
  have whole := List.takeWhile_append_dropWhile (p := (· != '.')) (l := name.toList)
  have space : '.' ∉ name.toList.takeWhile (· != '.') := by
    intro member
    simpa using List.mem_takeWhile_imp member
  unfold bareName
  cases rest : name.toList.dropWhile (· != '.') with
  | nil =>
    rw [rest, List.append_nil] at whole
    rw [whole] at space
    exact .inr ⟨space, rfl⟩
  | cons c bare =>
    have dot : c = '.' := by
      have head := List.head_dropWhile_not (· != '.') (l := name.toList) (by simp [rest])
      simpa [rest] using head
    rw [rest, dot] at whole
    exact .inl ⟨_, space, whole.symm⟩

/-- How far a candidate is from a missing name. -/
def remoteness (missing candidate : String) : Nat :=
  editDistance (bareName candidate) (bareName missing)

/-- Whether a candidate is within a third of the length of the missing name, or within two. -/
def isNear (missing candidate : String) : Bool :=
  remoteness missing candidate ≤ max ((bareName missing).length / 3) 2

/-- An order of the candidates within reach of a missing name, the nearest first and those at one
distance by their text. -/
structure IsRanking (missing : String) (candidates ranking : List String) : Prop where
  reached : ranking.Perm (candidates.filter (isNear missing))
  ordered : ranking.Pairwise fun a b => remoteness missing a < remoteness missing b ∨
    remoteness missing a = remoteness missing b ∧ a ≤ b

/-- There is only one ranking. -/
theorem IsRanking.unique {missing : String} {candidates ranking other : List String}
    (ranked : IsRanking missing candidates ranking) (again : IsRanking missing candidates other) :
    ranking = other := by
  apply List.Perm.eq_of_pairwise _ ranked.ordered again.ordered
    (ranked.reached.trans again.reached.symm)
  intro a b _ _ before after
  rcases before with nearer | ⟨same, le⟩
  · omega
  · rcases after with farther | ⟨_, ge⟩
    · omega
    · exact String.le_antisymm le ge

theorem precedes_iff {a b : Nat × String} :
    precedes a b = true ↔ a.1 < b.1 ∨ a.1 = b.1 ∧ a.2 ≤ b.2 := by
  simp [precedes]

theorem precedes_total (a b : Nat × String) : precedes a b = true ∨ precedes b a = true := by
  rw [precedes_iff, precedes_iff]
  rcases Nat.lt_trichotomy a.1 b.1 with nearer | same | farther
  · exact .inl (.inl nearer)
  · rcases String.le_total a.2 b.2 with le | ge
    · exact .inl (.inr ⟨same, le⟩)
    · exact .inr (.inr ⟨same.symm, ge⟩)
  · exact .inr (.inl farther)

theorem precedes_trans (a b c : Nat × String) (first : precedes a b = true)
    (second : precedes b c = true) : precedes a c = true := by
  rw [precedes_iff] at first second ⊢
  rcases first with nearer | ⟨same, le⟩
  · rcases second with nearerStill | ⟨_, _⟩ <;> exact .inl (by omega)
  · rcases second with nearer | ⟨alsoSame, leToo⟩
    · exact .inl (by omega)
    · exact .inr ⟨by omega, String.le_trans le leToo⟩

/-- The candidates within reach with their distances. -/
def scored (missing : String) (candidates : List String) : List (Nat × String) :=
  (candidates.filter (isNear missing)).map fun candidate =>
    (remoteness missing candidate, candidate)

theorem scored_eq (missing : String) (candidates : List String) :
    scored missing candidates = candidates.filterMap fun candidate =>
      if isNear missing candidate then some (remoteness missing candidate, candidate)
      else none := by
  rw [scored, ← List.filterMap_eq_map, List.filterMap_filter]
  rfl

theorem isNear_iff {missing candidate : String} :
    isNear missing candidate = true ↔
      remoteness missing candidate ≤ reach (bareName missing) := by
  simp [isNear, reach]

/-- The limit does not change the distance of a candidate within reach. -/
theorem score_eq (missing candidate : String) :
    (if distanceWithin (reach (bareName missing)) (bareName candidate) (bareName missing) ≤
        reach (bareName missing) then
      some (distanceWithin (reach (bareName missing)) (bareName candidate) (bareName missing),
        candidate)
    else none) =
      if isNear missing candidate then some (remoteness missing candidate, candidate)
      else none := by
  simp only [distanceWithin_le_iff, isNear_iff, remoteness]
  split
  · next near => rw [distanceWithin_of_le near]
  · rfl

theorem similar_eq (missing : String) (candidates : List String) :
    similar missing candidates =
      ((sortBy precedes (scored missing candidates)).map (·.2)).take 3 := by
  simp only [similar, score_eq, scored_eq, List.map_take]

theorem isRanking_sortBy (missing : String) (candidates : List String) :
    IsRanking missing candidates ((sortBy precedes (scored missing candidates)).map (·.2)) := by
  constructor
  · have names : (scored missing candidates).map (·.2) = candidates.filter (isNear missing) := by
      simp [scored, Function.comp_def]
    rw [← names]
    exact perm_sortBy.map _
  · apply List.pairwise_map.mpr
    apply (pairwise_sortBy precedes_total precedes_trans (scored missing candidates)).imp_of_mem
    intro a b first second before
    -- each item was scored with its own distance
    have own {item : Nat × String} (member : item ∈ sortBy precedes (scored missing candidates)) :
        item.1 = remoteness missing item.2 := by
      obtain ⟨candidate, _, rfl⟩ := List.mem_map.mp (perm_sortBy.mem_iff.mp member)
      rfl
    rw [← own first, ← own second]
    exact precedes_iff.mp before

/-- The suggestions are the first three of the candidates within reach, in the order of their edit
distance to the missing name and of their text. -/
theorem similar_isRanking (missing : String) (candidates : List String) :
    (∃ ranking, IsRanking missing candidates ranking ∧
      similar missing candidates = ranking.take 3) ∧
    (∀ ranking, IsRanking missing candidates ranking →
      similar missing candidates = ranking.take 3) ∧
    (∀ name, IsBareName name (bareName name)) ∧
    ∀ limit value needle,
      distanceWithin limit value needle = min (editDistance value needle) (limit + 1) := by
  have ranked := isRanking_sortBy missing candidates
  refine ⟨⟨_, ranked, similar_eq missing candidates⟩, ?_, isBareName_bareName, distanceWithin_eq⟩
  intro ranking again
  rw [similar_eq, ranked.unique again]

example : similar "prodcut" ["shop.products", "shop.product", "order", "local.conduct"] =
    ["shop.product"] := by
  decide +kernel

end SemanticQuery.Suggestion
