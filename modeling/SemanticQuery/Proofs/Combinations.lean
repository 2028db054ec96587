import SemanticQuery.Combinations

/-!
Combinations are enumerated completely and in order. A turn leads to the least indices above those
that it starts from, and where no turn is left there are none above, so turning on from the first
indices visits all increasing ones, each once and in lexicographic order.
-/

namespace SemanticQuery

namespace Places

/-- The lexicographic order of indices. -/
abbrev Before : List Nat → List Nat → Prop := List.Lex (· < ·)

theorem eq_of_not_before {a b : List Nat} (notBefore : ¬ Before a b) (notAfter : ¬ Before b a) :
    a = b := by
  refine List.lex_trichotomous (fun i k notLess notMore => ?_) notAfter notBefore
  omega

theorem Before.trans_not {a b c : List Nat} (before : Before a b) (notLess : ¬ Before c b) :
    Before a c := by
  by_cases after : Before b c
  · exact List.lex_trans Nat.lt_trans before after
  · exact eq_of_not_before after notLess ▸ before

section Turns

variable {count size position : Nat} {indices next other : List Nat}

/-- Increasing indices need room for as many as they are. -/
theorem add_length_lt {first : Nat} (increasing : (first :: indices).Pairwise (· < ·))
    (below : ∀ i ∈ first :: indices, i < count) : first + indices.length < count := by
  induction indices generalizing first with
  | nil => exact below first List.mem_cons_self
  | cons second indices ih =>
    obtain ⟨ahead, later⟩ := List.pairwise_cons.mp increasing
    have room := ih later fun i member => below i (List.mem_cons_of_mem _ member)
    have gap := ahead second List.mem_cons_self
    rw [List.length_cons]
    omega

/-- No increasing indices come before those that follow each other closely from their least. -/
theorem not_before_range' {start : Nat} (increasing : other.Pairwise (· < ·))
    (least : ∀ i ∈ other, start ≤ i) : ¬ Before other (List.range' start other.length) := by
  induction other generalizing start with
  | nil => exact List.not_lex_nil
  | cons first rest ih =>
    obtain ⟨ahead, later⟩ := List.pairwise_cons.mp increasing
    rw [List.length_cons, List.range'_succ]
    intro before
    rcases List.cons_lex_cons_iff.mp before with lower | ⟨rfl, before⟩
    · exact absurd lower (Nat.not_lt.mpr (least first List.mem_cons_self))
    · exact ih later (fun i member => ahead i member) before

theorem before_advance (turned : advance count size position indices = some next) :
    Before indices next := by
  induction indices generalizing position next with
  | nil => cases turned
  | cons index rest ih =>
    obtain ⟨later, inner, rfl⟩ | ⟨_, _, rfl⟩ := advance_cons turned
    · exact .cons (ih inner)
    · exact .rel (Nat.lt_succ_self index)

/-- Where no turn is left, no increasing indices follow: each index stands as far to the right as
those after it allow. -/
theorem not_before_of_advance (last : advance count size position indices = none)
    (fits : size ≤ count) (whole : position + indices.length = size)
    (length : other.length = indices.length) (increasing : other.Pairwise (· < ·))
    (below : ∀ i ∈ other, i < count) : ¬ Before indices other := by
  induction indices generalizing position other with
  | nil =>
    rw [List.length_eq_zero_iff.mp length]
    exact List.not_lex_nil
  | cons index rest ih =>
    obtain ⟨inner, full⟩ := advance_cons_none last
    rw [List.length_cons] at whole
    rcases other with _ | ⟨k, others⟩
    · cases length
    · intro before
      have sameLength : others.length = rest.length := Nat.succ.inj length
      rcases List.cons_lex_cons_iff.mp before with higher | ⟨rfl, restBefore⟩
      · have room := add_length_lt increasing below
        omega
      · exact ih inner (by omega) sameLength (List.pairwise_cons.mp increasing).2
          (fun i member => below i (List.mem_cons_of_mem _ member)) restBefore

/-- A turn leads to the least increasing indices above. -/
theorem not_before_advance (turned : advance count size position indices = some next)
    (fits : size ≤ count) (whole : position + indices.length = size)
    (length : other.length = indices.length) (increasing : other.Pairwise (· < ·))
    (below : ∀ i ∈ other, i < count) (after : Before indices other) : ¬ Before other next := by
  induction indices generalizing position next other with
  | nil => cases turned
  | cons index rest ih =>
    rw [List.length_cons] at whole
    rcases other with _ | ⟨k, others⟩
    · cases length
    · have sameLength : others.length = rest.length := Nat.succ.inj length
      obtain ⟨ahead, rising⟩ := List.pairwise_cons.mp increasing
      have inside : ∀ i ∈ others, i < count :=
        fun i member => below i (List.mem_cons_of_mem _ member)
      obtain ⟨later, inner, rfl⟩ | ⟨last, _, rfl⟩ := advance_cons turned
      · intro before
        rcases List.cons_lex_cons_iff.mp before with lower | ⟨rfl, restBefore⟩
        · rcases List.cons_lex_cons_iff.mp after with higher | ⟨rfl, _⟩
          · omega
          · omega
        · rcases List.cons_lex_cons_iff.mp after with higher | ⟨_, restAfter⟩
          · omega
          · exact ih inner (by omega) sameLength rising inside restAfter restBefore
      · rcases List.cons_lex_cons_iff.mp after with higher | ⟨rfl, restAfter⟩
        · rw [← sameLength]
          refine not_before_range' increasing (List.forall_mem_cons.mpr ⟨higher, fun i member => ?_⟩)
          exact Nat.le_of_lt (Nat.lt_of_le_of_lt higher (ahead i member))
        · exact absurd restAfter
            (not_before_of_advance last fits (by omega) sameLength rising inside)

end Turns

variable {count size : Nat} {p q r : Places count size}

theorem eq_of_indices (same : p.indices = q.indices) : p = q := by
  cases p
  cases q
  cases same
  rfl

/-- The next places are the least above. -/
theorem next?_least (found : p.next? = some q) : Before p.indices q.indices ∧
    (Before p.indices r.indices → ¬ Before r.indices q.indices) := by
  have turned := advance_of_next? found
  have whole : 0 + p.indices.length = size := by rw [Nat.zero_add, p.length]
  refine ⟨before_advance turned, ?_⟩
  exact not_before_advance turned p.fits whole (r.length.trans p.length.symm) r.increasing
    r.below

theorem next?_last (last : p.next? = none) : ¬ Before p.indices r.indices := by
  have whole : 0 + p.indices.length = size := by rw [Nat.zero_add, p.length]
  exact not_before_of_advance (advance_of_last last) p.fits whole
    (r.length.trans p.length.symm) r.increasing r.below

theorem onward_of_next? (found : p.next? = some q) : p.onward = p :: q.onward := by
  rw [onward]
  split
  · next last => cases last.symm.trans found
  · next other => cases other.symm.trans found; rfl

theorem onward_of_last (last : p.next? = none) : p.onward = [p] := by
  rw [onward]
  split
  · rfl
  · next found => cases found.symm.trans last

/-- Turning on visits all places that do not come before. -/
theorem mem_onward : q ∈ p.onward ↔ ¬ Before q.indices p.indices := by
  induction p using onward.induct with
  | case1 p last =>
    rw [onward_of_last last, List.mem_singleton]
    constructor
    · rintro rfl
      exact List.lex_irrefl Nat.lt_irrefl _
    · intro notBefore
      exact eq_of_indices (eq_of_not_before notBefore (next?_last last))
  | case2 p next found ih =>
    rw [onward_of_next? found, List.mem_cons, ih]
    have ahead := (next?_least (r := p) found).1
    constructor
    · rintro (rfl | notBefore)
      · exact List.lex_irrefl Nat.lt_irrefl _
      · exact fun before => notBefore (List.lex_trans Nat.lt_trans before ahead)
    · intro notBefore
      by_cases after : Before p.indices q.indices
      · exact .inr ((next?_least found).2 after)
      · exact .inl (eq_of_indices (eq_of_not_before notBefore after))

/-- Turning on visits places in their order. -/
theorem pairwise_onward (p : Places count size) :
    p.onward.Pairwise fun a b => Before a.indices b.indices := by
  induction p using onward.induct with
  | case1 p last =>
    rw [onward_of_last last]
    exact List.pairwise_singleton _ p
  | case2 p next found ih =>
    rw [onward_of_next? found]
    refine List.pairwise_cons.mpr ⟨fun r member => ?_, ih⟩
    exact (next?_least (r := r) found).1.trans_not (mem_onward.mp member)

/-- Nothing comes before the first places. -/
theorem mem_onward_first {fits : size ≤ count} : q ∈ (first fits).onward := by
  have closely : ¬ Before q.indices (List.range' 0 q.indices.length) :=
    not_before_range' q.increasing fun i _ => Nat.zero_le i
  rw [q.length, ← List.range_eq_range'] at closely
  exact mem_onward.mpr closely

/-- Every index is found among the items. -/
theorem map_getElem?_indices {items : List α} (p : Places items.length size) :
    p.indices.map (items[·]?) = (p.pick items).map some := by
  have found : p.indices.pmap (fun i (low : i < items.length) => some items[i]) p.below =
      p.indices.pmap (fun i (_ : i < items.length) => items[i]?) p.below :=
    List.pmap_congr_left _ fun i _ low _ => (List.getElem?_eq_getElem low).symm
  rw [pick, List.map_pmap, found, List.pmap_eq_map]

section Checked

/-!
The same turns as single steps on a list of indices, in which every access has to be in range and a
difference must not fall below zero. Such a step can fail, but not at places.
-/

/-- Replaces an index that is there. -/
def set? (indices : List Nat) (position value : Nat) : Option (List Nat) :=
  if position < indices.length then some (indices.set position value) else none

/-- Lets indices follow the one at a position closely. -/
def follow? : (steps position : Nat) → List Nat → Option (List Nat)
  | 0, _, indices => some indices
  | steps + 1, position, indices => do
    let index ← indices[position]?
    let indices ← set? indices (position + 1) (index + 1)
    follow? steps (position + 1) indices

/-- A turn, in search of the last position before `position` that has room. -/
def turn? (count size : Nat) (indices : List Nat) : (position : Nat) → Option (Option (List Nat))
  | 0 => some none
  | position + 1 => do
    let index ← indices[position]?
    let room ← if size ≤ count then some (count - size) else none
    if index < room + position then
      let indices ← set? indices position (index + 1)
      let indices ← follow? (size - (position + 1)) position indices
      return some indices
    else turn? count size indices position

/-- What turning on puts out, if no access and no difference fails. -/
inductive Turns (items : List α) (size : Nat) : List Nat → List (List α) → Prop
  | last {indices : List Nat} {chosen : List α} :
      indices.map (items[·]?) = chosen.map some →
      turn? items.length size indices size = some none → Turns items size indices [chosen]
  | turn {indices next : List Nat} {chosen : List α} {output : List (List α)} :
      indices.map (items[·]?) = chosen.map some →
      turn? items.length size indices size = some (some next) → Turns items size next output →
      Turns items size indices (chosen :: output)

theorem follow?_append (front rest : List Nat) (index : Nat) :
    follow? rest.length front.length (front ++ index :: rest) =
      some (front ++ List.range' index (rest.length + 1)) := by
  induction rest generalizing front index with
  | nil => rfl
  | cons next rest ih =>
    have step : follow? (rest.length + 1) front.length (front ++ index :: next :: rest) =
        follow? rest.length (front.length + 1) (front ++ index :: (index + 1) :: rest) := by
      simp [follow?, set?]
    have shifted := ih (front ++ [index]) (index + 1)
    rw [List.length_append, List.append_assoc] at shifted
    rw [List.length_cons, step]
    refine shifted.trans ?_
    simp [List.range'_succ]

theorem advance_append {count size position : Nat} {front back moved : List Nat}
    (turned : advance count size (position + front.length) back = some moved) :
    advance count size position (front ++ back) = some (front ++ moved) := by
  induction front generalizing position with
  | nil => exact turned
  | cons index front ih =>
    have inner : advance count size (position + 1) (front ++ back) = some (front ++ moved) := by
      apply ih
      rw [← turned, List.length_cons]
      congr 1
      omega
    rw [List.cons_append, advance, inner]
    rfl

/-- The search for the last position with room passes over the positions from which on no turn is
left. -/
theorem turn?_append {count size position : Nat} (fits : size ≤ count) {front back : List Nat}
    (last : advance count size position back = none) (reached : front.length = position)
    (whole : position + back.length = size) :
    turn? count size (front ++ back) position = some (advance count size 0 (front ++ back)) := by
  induction position generalizing front back with
  | zero =>
    rw [List.length_eq_zero_iff.mp reached, List.nil_append]
    exact congrArg some last.symm
  | succ position ih =>
    obtain ⟨front, index, rfl⟩ : ∃ others index, front = others ++ [index] := by
      rcases List.eq_nil_or_concat front with rfl | ⟨others, index, rfl⟩
      · cases reached
      · exact ⟨others, index, List.concat_eq_append⟩
    have reached : front.length = position := by simpa using reached
    rw [List.append_assoc, List.singleton_append, turn?]
    have found : (front ++ index :: back)[position]? = some index := by simp [← reached]
    simp only [found, if_pos fits, Option.bind_eq_bind, Option.bind_some]
    by_cases room : index < count - size + position
    · have turned : advance count size (0 + front.length) (index :: back) =
          some (List.range' (index + 1) (back.length + 1)) := by
        rw [Nat.zero_add, reached, advance, last]
        exact if_pos room
      have placed : set? (front ++ index :: back) position (index + 1) =
          some (front ++ (index + 1) :: back) := by simp [set?, ← reached]
      have steps : size - (position + 1) = back.length := by omega
      rw [if_pos room, placed, Option.bind_some, steps, ← reached, follow?_append,
        advance_append turned]
      rfl
    · have none : advance count size position (index :: back) = none := by
        rw [advance, last]
        exact if_neg room
      rw [if_neg room]
      exact ih none reached (by rw [List.length_cons]; omega)

/-- A turn at places does not fail. -/
theorem turn?_indices {count size : Nat} (p : Places count size) :
    turn? count size p.indices size = some (p.next?.map (·.indices)) := by
  have turned : p.next?.map (·.indices) = advance count size 0 p.indices := by
    cases found : p.next? with
    | some q => exact (advance_of_next? found).symm
    | none => exact (advance_of_last found).symm
  have whole := turn?_append p.fits (advance.eq_1 count size size) p.length (Nat.add_zero size)
  rwa [List.append_nil, ← turned] at whole

/-- Turning on from places puts out what is at them and at all that follow. -/
theorem turns_onward {items : List α} {size : Nat} (p : Places items.length size) :
    Turns items size p.indices (p.onward.map (·.pick items)) := by
  induction p using onward.induct with
  | case1 p last =>
    rw [onward_of_last last]
    refine .last p.map_getElem?_indices ?_
    rw [turn?_indices, last]
    rfl
  | case2 p next found ih =>
    rw [onward_of_next? found]
    refine .turn p.map_getElem?_indices ?_ ih
    rw [turn?_indices, found]
    rfl

/-- Turning on puts out one result. -/
theorem Turns.unique {items : List α} {size : Nat} {indices : List Nat}
    {output other : List (List α)} (turns : Turns items size indices output)
    (again : Turns items size indices other) : output = other := by
  have chosen {indices : List Nat} {a b : List α} (first : indices.map (items[·]?) = a.map some)
      (second : indices.map (items[·]?) = b.map some) : a = b :=
    List.map_inj_right (fun _ _ => Option.some.inj) |>.mp (first.symm.trans second)
  induction turns generalizing other with
  | last found turned =>
    cases again with
    | last alsoFound => rw [chosen found alsoFound]
    | turn _ alsoTurned => cases turned.symm.trans alsoTurned
  | turn found turned _ ih =>
    cases again with
    | last _ alsoTurned => cases turned.symm.trans alsoTurned
    | turn alsoFound alsoTurned rest =>
      cases turned.symm.trans alsoTurned
      rw [chosen found alsoFound, ih rest]

end Checked

end Places

/-- Combinations are the items at increasing indices, each once and in the lexicographic order of
the indices. Turning on from the first indices comes to them without an access out of range or a
difference below zero. -/
theorem combinations_enumerates (items : List α) (size : Nat) :
    (0 < size ∧ size ≤ items.length →
      (∀ output, Places.Turns items size (List.range size) output ↔
        output = combinations items size) ∧
      ∃ tuples : List (List Nat),
        (∀ t, t ∈ tuples ↔
          t.length = size ∧ t.Pairwise (· < ·) ∧ ∀ i ∈ t, i < items.length) ∧
        tuples.Pairwise (List.Lex (· < ·)) ∧
        tuples.map (·.map (items[·]?)) = (combinations items size).map (·.map some)) ∧
    (size = 0 ∨ items.length < size → combinations items size = []) := by
  refine ⟨?_, fun outside => dif_neg (by omega)⟩
  rintro ⟨positive, fits⟩
  have made : combinations items size = (Places.first fits).onward.map (·.pick items) :=
    dif_pos ⟨positive, fits⟩
  have turns := Places.turns_onward (Places.first fits)
  rw [made]
  refine ⟨fun output => ⟨fun other => other.unique turns, fun same => same ▸ turns⟩,
    (Places.first fits).onward.map (·.indices), fun t => ⟨?_, ?_⟩, ?_, ?_⟩
  · intro member
    obtain ⟨p, _, rfl⟩ := List.mem_map.mp member
    exact ⟨p.length, p.increasing, p.below⟩
  · rintro ⟨length, increasing, below⟩
    exact List.mem_map.mpr ⟨⟨t, length, increasing, below, fits⟩, Places.mem_onward_first, rfl⟩
  · exact List.pairwise_map.mpr (Places.pairwise_onward _)
  · rw [List.map_map, List.map_map]
    exact List.map_congr_left fun p _ => p.map_getElem?_indices

theorem combinations_enumerates_letters :
    (0 < 2 ∧ 2 ≤ ['a', 'b', 'c'].length ∧
      Places.Turns ['a', 'b', 'c'] 2 [0, 1] [['a', 'b'], ['a', 'c'], ['b', 'c']]) ∧
    ['a', 'b', 'c'].length < 4 ∧ combinations ['a', 'b', 'c'] 4 = [] := by
  have inside := (combinations_enumerates ['a', 'b', 'c'] 2).1 (by decide)
  have outside := (combinations_enumerates ['a', 'b', 'c'] 4).2 (by decide)
  exact ⟨⟨by decide, by decide, (inside.1 _).mpr (by decide +kernel)⟩, by decide, outside⟩

end SemanticQuery
