/-!
Sets of names and maps keyed by names. Both are kept in increasing order of the names, so that a
set or map has one form and is listed in one order.
-/

namespace SemanticQuery

namespace Names

/-- Puts a name at its place in an increasing list, unless it is there already. -/
def insert (name : String) : List String → List String
  | [] => [name]
  | first :: rest =>
    if name < first then name :: first :: rest
    else if name = first then first :: rest
    else first :: insert name rest

/-- The names of a list, in increasing order and each once. -/
def ofList (names : List String) : List String := names.foldr insert []

def subset (a b : List String) : Bool := a.all b.contains

def disjoint (a b : List String) : Bool := a.all fun name => !b.contains name

def same (a b : List String) : Bool := subset a b && subset b a

/-- The items whose name is neither in `seen` nor the name of an earlier item. -/
def uniqueFrom (name : α → String) (seen : List String) : List α → List α
  | [] => []
  | a :: rest =>
    if seen.contains (name a) then uniqueFrom name seen rest
    else a :: uniqueFrom name (name a :: seen) rest

/-- The first item of each name, in order. -/
def uniqueOn (name : α → String) (items : List α) : List α := uniqueFrom name [] items

theorem mem_insert {name other : String} {names : List String} :
    other ∈ insert name names ↔ other = name ∨ other ∈ names := by
  induction names with
  | nil => simp [insert]
  | cons first rest ih =>
    simp only [insert]
    split
    · simp
    · split
      · next same => subst same; simp
      · simp only [List.mem_cons, ih]
        constructor <;> rintro (h | h | h) <;> simp [h]

@[simp] theorem mem_ofList {name : String} {names : List String} :
    name ∈ ofList names ↔ name ∈ names := by
  induction names with
  | nil => simp [ofList]
  | cons first rest ih =>
    have unfolded : ofList (first :: rest) = insert first (ofList rest) := rfl
    rw [unfolded, mem_insert, ih, List.mem_cons]

theorem lt_of_not_lt {a b : String} (notLt : ¬ a < b) (distinct : a ≠ b) : b < a :=
  String.not_le.mp fun le => distinct (String.le_antisymm le (String.not_lt.mp notLt))

theorem pairwise_insert {name : String} {names : List String}
    (increasing : names.Pairwise (· < ·)) : (insert name names).Pairwise (· < ·) := by
  induction names with
  | nil => simp [insert]
  | cons first rest ih =>
    obtain ⟨least, tail⟩ := List.pairwise_cons.mp increasing
    simp only [insert]
    split
    · next lt =>
      refine List.pairwise_cons.mpr ⟨?_, increasing⟩
      intro other member
      rcases List.mem_cons.mp member with rfl | member
      · exact lt
      · exact String.lt_trans lt (least other member)
    · next notLt =>
      split
      · exact increasing
      · next distinct =>
        refine List.pairwise_cons.mpr ⟨?_, ih tail⟩
        intro other member
        rcases mem_insert.mp member with rfl | member
        · exact lt_of_not_lt notLt distinct
        · exact least other member

theorem pairwise_ofList (names : List String) : (ofList names).Pairwise (· < ·) := by
  induction names with
  | nil => simp [ofList]
  | cons first rest ih => exact pairwise_insert ih

@[simp] theorem subset_iff {a b : List String} : subset a b = true ↔ ∀ name ∈ a, name ∈ b := by
  simp [subset]

@[simp] theorem same_iff {a b : List String} :
    same a b = true ↔ ∀ name, name ∈ a ↔ name ∈ b := by
  simp only [same, Bool.and_eq_true, subset_iff]
  exact ⟨fun h name => ⟨h.1 name, h.2 name⟩,
    fun h => ⟨fun name => (h name).mp, fun name => (h name).mpr⟩⟩

end Names

/-- A map from names to values, in increasing order of the names. -/
structure NameMap (α : Type u) where
  entries : List (String × α)
  increasing : entries.Pairwise (·.1 < ·.1)

namespace NameMap

def empty : NameMap α := ⟨[], .nil⟩

instance : EmptyCollection (NameMap α) := ⟨empty⟩

instance : Inhabited (NameMap α) := ⟨∅⟩

def keys (m : NameMap α) : List String := m.entries.map (·.1)

def values (m : NameMap α) : List α := m.entries.map (·.2)

def size (m : NameMap α) : Nat := m.entries.length

def get? (m : NameMap α) (name : String) : Option α :=
  (m.entries.find? (·.1 == name)).map (·.2)

def contains (m : NameMap α) (name : String) : Bool := m.entries.any (·.1 == name)

/-- Puts a value at the place of its name in an increasing list, replacing the value there. -/
def place (name : String) (value : α) : List (String × α) → List (String × α)
  | [] => [(name, value)]
  | first :: rest =>
    if name < first.1 then (name, value) :: first :: rest
    else if name = first.1 then (name, value) :: rest
    else first :: place name value rest

theorem eq_or_mem_of_mem_place {name : String} {value : α} {entries : List (String × α)}
    {entry : String × α} (member : entry ∈ place name value entries) :
    entry = (name, value) ∨ entry ∈ entries := by
  induction entries with
  | nil => simpa [place] using member
  | cons first rest ih =>
    simp only [place] at member
    split at member
    · simpa using member
    · split at member
      · rcases List.mem_cons.mp member with h | h
        · exact .inl h
        · exact .inr (List.mem_cons_of_mem _ h)
      · rcases List.mem_cons.mp member with h | h
        · exact .inr (h ▸ List.mem_cons_self)
        · exact (ih h).imp_right (List.mem_cons_of_mem _)

theorem pairwise_place {name : String} {value : α} {entries : List (String × α)}
    (increasing : entries.Pairwise (·.1 < ·.1)) :
    (place name value entries).Pairwise (·.1 < ·.1) := by
  induction entries with
  | nil => simp [place]
  | cons first rest ih =>
    obtain ⟨least, tail⟩ := List.pairwise_cons.mp increasing
    simp only [place]
    split
    · next lt =>
      refine List.pairwise_cons.mpr ⟨?_, increasing⟩
      intro other member
      rcases List.mem_cons.mp member with rfl | member
      · exact lt
      · exact String.lt_trans lt (least other member)
    · next notLt =>
      split
      · next same =>
        exact List.pairwise_cons.mpr ⟨fun other member => same ▸ least other member, tail⟩
      · next distinct =>
        refine List.pairwise_cons.mpr ⟨?_, ih tail⟩
        intro other member
        rcases eq_or_mem_of_mem_place member with rfl | member
        · exact Names.lt_of_not_lt notLt distinct
        · exact least other member

def insert (m : NameMap α) (name : String) (value : α) : NameMap α :=
  ⟨place name value m.entries, pairwise_place m.increasing⟩

theorem find?_place (name other : String) (value : α) (entries : List (String × α)) :
    (place name value entries).find? (·.1 == other) =
      if other = name then some (name, value) else entries.find? (·.1 == other) := by
  by_cases same : other = name
  · subst same
    induction entries with
    | nil => simp [place]
    | cons first rest ih =>
      simp only [place]
      split
      · simp
      · split
        · simp
        · next distinct =>
          have skipped : (first.1 == other) = false := beq_false_of_ne (Ne.symm distinct)
          simpa [skipped] using ih
  · have skipped : (name == other) = false := beq_false_of_ne (Ne.symm same)
    induction entries with
    | nil => simp [place, same, skipped]
    | cons first rest ih =>
      simp only [if_neg same] at ih ⊢
      simp only [place]
      split
      · simp [skipped]
      · split
        · next held => simp [← held, skipped]
        · simp only [List.find?_cons, ih]

theorem get?_insert (m : NameMap α) (name other : String) (value : α) :
    (m.insert name value).get? other = if other = name then some value else m.get? other := by
  simp only [get?, insert, find?_place]
  split <;> rfl

theorem contains_iff {m : NameMap α} {name : String} :
    m.contains name = true ↔ name ∈ m.keys := by
  simp [contains, keys]

theorem get?_eq_none_iff {m : NameMap α} {name : String} :
    m.get? name = none ↔ name ∉ m.keys := by
  simp only [get?, Option.map_eq_none_iff, List.find?_eq_none, beq_iff_eq, keys, List.mem_map]
  exact ⟨fun absent ⟨entry, member, same⟩ => absent entry member same,
    fun absent entry member same => absent ⟨entry, member, same⟩⟩

theorem mem_keys_insert {m : NameMap α} {name other : String} {value : α} :
    other ∈ (m.insert name value).keys ↔ other = name ∨ other ∈ m.keys := by
  have absent : other ∉ (m.insert name value).keys ↔ ¬ (other = name ∨ other ∈ m.keys) := by
    rw [← get?_eq_none_iff, get?_insert]
    split <;> simp_all [get?_eq_none_iff]
  exact Decidable.not_iff_not.mp absent

def insertIfNew (m : NameMap α) (name : String) (value : α) : NameMap α :=
  if m.contains name then m else m.insert name value

def erase (m : NameMap α) (name : String) : NameMap α :=
  ⟨m.entries.filter (·.1 != name), m.increasing.filter _⟩

/-- The map of a list of entries, in which the last entry of a name counts. -/
def ofList (entries : List (String × α)) : NameMap α :=
  entries.foldl (fun m entry => m.insert entry.1 entry.2) ∅

def map (f : String → α → β) (m : NameMap α) : NameMap β :=
  ⟨m.entries.map fun entry => (entry.1, f entry.1 entry.2), by
    rw [List.pairwise_map]; exact m.increasing⟩

end NameMap

end SemanticQuery
