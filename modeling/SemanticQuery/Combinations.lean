/-!
Combinations of the items of a list, in the lexicographic order of their positions. The positions
are turned like the wheels of an odometer: the last one that has room moves on, and those after it
follow it closely.
-/

namespace SemanticQuery

/-- Increasing indices of items, `size` out of `count`. -/
structure Places (count size : Nat) where
  indices : List Nat
  length : indices.length = size
  increasing : indices.Pairwise (· < ·)
  below : ∀ i ∈ indices, i < count
  fits : size ≤ count

namespace Places

/-- The indices that follow in lexicographic order, if there are any. The given ones are those from
`position` on, out of `size` increasing indices below `count`. -/
def advance (count size : Nat) : (position : Nat) → List Nat → Option (List Nat)
  | _, [] => none
  | position, index :: rest =>
    match advance count size (position + 1) rest with
    | some rest => some (index :: rest)
    | none =>
      if index < count - size + position then some (List.range' (index + 1) (rest.length + 1))
      else none

/-- How many turns can follow at most: the indices as the digits of a number, counted down. -/
def turnsLeft (count : Nat) : List Nat → Nat
  | [] => 0
  | index :: rest => (count - index) * Nat.pow (count + 1) rest.length + turnsLeft count rest

section Advance

variable {count size position : Nat} {indices next : List Nat}

/-- A turn moves an index after the first, or the first if no later one has room. -/
theorem advance_cons {index : Nat} {rest : List Nat}
    (turned : advance count size position (index :: rest) = some next) :
    (∃ later, advance count size (position + 1) rest = some later ∧ next = index :: later) ∨
      advance count size (position + 1) rest = none ∧ index < count - size + position ∧
        next = List.range' (index + 1) (rest.length + 1) := by
  rw [advance] at turned
  split at turned
  · next later inner =>
    cases turned
    exact .inl ⟨later, inner, rfl⟩
  · next last =>
    split at turned
    · next room =>
      cases turned
      exact .inr ⟨last, room, rfl⟩
    · cases turned

/-- No turn is left if neither the first index nor a later one has room. -/
theorem advance_cons_none {index : Nat} {rest : List Nat}
    (last : advance count size position (index :: rest) = none) :
    advance count size (position + 1) rest = none ∧ count - size + position ≤ index := by
  rw [advance] at last
  split at last
  · cases last
  · next inner =>
    split at last
    · cases last
    · next full => exact ⟨inner, Nat.not_lt.mp full⟩

theorem length_advance (turned : advance count size position indices = some next) :
    next.length = indices.length := by
  induction indices generalizing position next with
  | nil => cases turned
  | cons index rest ih =>
    obtain ⟨later, inner, rfl⟩ | ⟨_, _, rfl⟩ := advance_cons turned
    · rw [List.length_cons, List.length_cons, ih inner]
    · rw [List.length_range', List.length_cons]

theorem lt_of_mem_advance (turned : advance count size position indices = some next) {bound : Nat}
    (above : ∀ i ∈ indices, bound < i) : ∀ i ∈ next, bound < i := by
  induction indices generalizing position next with
  | nil => cases turned
  | cons index rest ih =>
    obtain ⟨first, others⟩ := List.forall_mem_cons.mp above
    obtain ⟨later, inner, rfl⟩ | ⟨_, _, rfl⟩ := advance_cons turned
    · exact List.forall_mem_cons.mpr ⟨first, ih inner others⟩
    · intro i member
      have least := (List.mem_range'_1.mp member).1
      omega

theorem increasing_advance (turned : advance count size position indices = some next)
    (increasing : indices.Pairwise (· < ·)) : next.Pairwise (· < ·) := by
  induction indices generalizing position next with
  | nil => cases turned
  | cons index rest ih =>
    obtain ⟨ahead, others⟩ := List.pairwise_cons.mp increasing
    obtain ⟨later, inner, rfl⟩ | ⟨_, _, rfl⟩ := advance_cons turned
    · exact List.pairwise_cons.mpr ⟨lt_of_mem_advance inner ahead, ih inner others⟩
    · exact List.pairwise_lt_range'

/-- An index that has room leaves enough of it to those after it. -/
theorem below_advance (turned : advance count size position indices = some next)
    (fits : size ≤ count) (whole : position + indices.length = size)
    (below : ∀ i ∈ indices, i < count) : ∀ i ∈ next, i < count := by
  induction indices generalizing position next with
  | nil => cases turned
  | cons index rest ih =>
    rw [List.length_cons] at whole
    obtain ⟨first, others⟩ := List.forall_mem_cons.mp below
    obtain ⟨later, inner, rfl⟩ | ⟨_, room, rfl⟩ := advance_cons turned
    · exact List.forall_mem_cons.mpr ⟨first, ih inner (by omega) others⟩
    · intro i member
      have most := (List.mem_range'_1.mp member).2
      omega

theorem turnsLeft_lt (count : Nat) (indices : List Nat) :
    turnsLeft count indices < Nat.pow (count + 1) indices.length := by
  induction indices with
  | nil => exact Nat.zero_lt_one
  | cons index rest ih =>
    have digit := Nat.mul_le_mul_right (Nat.pow (count + 1) rest.length) (Nat.sub_le count index)
    have power : Nat.pow (count + 1) (rest.length + 1) =
        count * Nat.pow (count + 1) rest.length + Nat.pow (count + 1) rest.length :=
      (Nat.mul_comm _ (count + 1)).trans (Nat.succ_mul _ _)
    rw [turnsLeft, List.length_cons, power]
    omega

theorem turnsLeft_advance (turned : advance count size position indices = some next)
    (below : ∀ i ∈ indices, i < count) : turnsLeft count next < turnsLeft count indices := by
  induction indices generalizing position next with
  | nil => cases turned
  | cons index rest ih =>
    obtain ⟨first, others⟩ := List.forall_mem_cons.mp below
    obtain ⟨later, inner, rfl⟩ | ⟨_, _, rfl⟩ := advance_cons turned
    · rw [turnsLeft, turnsLeft, length_advance inner]
      exact Nat.add_lt_add_left (ih inner others) _
    · have wheels := turnsLeft_lt count (List.range' (index + 1 + 1) rest.length)
      have digit : count - index = count - (index + 1) + 1 := by omega
      rw [List.range'_succ, turnsLeft, turnsLeft, digit, Nat.succ_mul]
      rw [List.length_range'] at wheels ⊢
      omega

end Advance

variable {count size : Nat}

def first (fits : size ≤ count) : Places count size where
  indices := List.range size
  length := List.length_range
  increasing := List.pairwise_lt_range
  below _ member := Nat.lt_of_lt_of_le (List.mem_range.mp member) fits
  fits := fits

def next? (p : Places count size) : Option (Places count size) :=
  match turned : advance count size 0 p.indices with
  | none => none
  | some indices =>
    some ⟨indices, (length_advance turned).trans p.length, increasing_advance turned p.increasing,
      below_advance turned p.fits (by rw [Nat.zero_add, p.length]) p.below, p.fits⟩

theorem advance_of_next? {p q : Places count size} (found : p.next? = some q) :
    advance count size 0 p.indices = some q.indices := by
  unfold next? at found
  split at found
  · cases found
  · next turned =>
    cases found
    exact turned

theorem advance_of_last {p : Places count size} (last : p.next? = none) :
    advance count size 0 p.indices = none := by
  unfold next? at last
  split at last
  · assumption
  · cases last

def onward (p : Places count size) : List (Places count size) :=
  match _ : p.next? with
  | none => [p]
  | some q => p :: q.onward
termination_by turnsLeft count p.indices
decreasing_by exact turnsLeft_advance (advance_of_next? ‹_›) p.below

def pick (items : List α) (p : Places items.length size) : List α :=
  p.indices.pmap (fun i (low : i < items.length) => items[i]) p.below

end Places

/-- The combinations of a positive number of items, in the order of their positions. -/
def combinations (items : List α) (size : Nat) : List (List α) :=
  if fits : 0 < size ∧ size ≤ items.length then
    (Places.first fits.2).onward.map (·.pick items)
  else []

end SemanticQuery
