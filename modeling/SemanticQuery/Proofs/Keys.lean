import SemanticQuery.Plan.History

/-!
What the key of a search tells about its request. Addresses are set off by `@` and concepts by `-`,
so if no name has one of these characters, then requests with the same key ask for the same
addresses.
-/

namespace SemanticQuery

/-- A concept whose name and namespace are free of the characters that set keys apart. -/
def Concept.Plain (c : Concept) : Prop :=
  ∀ char ∈ c.ns.toList ++ c.name.toList, char ≠ '@' ∧ char ≠ '-'

instance : DecidablePred Concept.Plain := fun c =>
  List.decidableBAll (fun char => char ≠ '@' ∧ char ≠ '-') (c.ns.toList ++ c.name.toList)

namespace Concept.Plain

variable {c : Concept}

theorem address (plain : c.Plain) : ∀ char ∈ c.address.toList, char ≠ '@' ∧ char ≠ '-' := by
  intro char member
  simp only [Concept.address, String.toList_append, List.mem_append] at member
  rcases member with (ns | dot) | name
  · exact plain char (List.mem_append_left _ ns)
  · have : char = '.' := by simpa using dot
    subst this
    decide
  · exact plain char (List.mem_append_right _ name)

theorem underscored {s : String} (plain : ∀ char ∈ s.toList, char ≠ '-') :
    ∀ char ∈ (Concept.underscored s).toList, char ≠ '-' := by
  intro char member
  simp only [Concept.underscored, String.toList_map, List.mem_map] at member
  obtain ⟨original, listed, rfl⟩ := member
  split
  · decide
  · exact plain original listed

theorem safeAddress (plain : c.Plain) : ∀ char ∈ c.safeAddress.toList, char ≠ '-' := by
  have ns := underscored fun char member => (plain char (List.mem_append_left _ member)).2
  have name := underscored fun char member => (plain char (List.mem_append_right _ member)).2
  intro char member
  unfold Concept.safeAddress at member
  split at member
  · exact name char member
  · simp only [String.toList_append, List.mem_append] at member
    rcases member with (first | mark) | second
    · exact ns char first
    · have : char = '_' := by simpa using mark
      subst this
      decide
    · exact name char second

end Concept.Plain

/-- A character between or in the texts that are joined. -/
theorem mem_of_mem_intercalate {separator : String} {char : Char} {parts : List String}
    (member : char ∈ (separator.intercalate parts).toList) :
    char ∈ separator.toList ∨ ∃ part ∈ parts, char ∈ part.toList := by
  induction parts with
  | nil => simp at member
  | cons part parts ih =>
    cases parts with
    | nil => exact .inr ⟨part, List.mem_cons_self, by simpa using member⟩
    | cons next rest =>
      rw [String.intercalate_cons_cons, String.toList_append, String.toList_append] at member
      rcases List.mem_append.mp member with first | later
      · rcases List.mem_append.mp first with inPart | between
        · exact .inr ⟨part, List.mem_cons_self, inPart⟩
        · exact .inl between
      · refine (ih later).imp_right ?_
        rintro ⟨other, listed, inOther⟩
        exact ⟨other, List.mem_cons_of_mem _ listed, inOther⟩

theorem Grain.identifier_plain {g : Grain} (plain : ∀ c ∈ g.components, c.Plain) :
    ∀ char ∈ g.identifier.toList, char ≠ '-' := by
  intro char member
  unfold identifier at member
  split at member
  · intro same
    subst same
    revert member
    decide
  · rcases mem_of_mem_intercalate member with between | ⟨part, listed, inside⟩
    · have : char = '_' := by simpa using between
      subst this
      decide
    · obtain ⟨c, component, rfl⟩ := List.mem_map.mp (perm_sortBy.mem_iff.mp listed)
      exact (plain c component).safeAddress char inside

namespace History

/-- Whether the key of a concept can be told apart from the rest. -/
def PlainPart (c : Concept) : Prop := c.Plain ∧ ∀ x ∈ c.grain.components, x.Plain

theorem toList_keyPart (c : Concept) :
    (keyPart c).toList = c.address.toList ++ '@' :: c.grain.identifier.toList := by
  simp [keyPart]

theorem dash_not_mem_keyPart {c : Concept} (plain : PlainPart c) : '-' ∉ (keyPart c).toList := by
  rw [toList_keyPart]
  intro member
  rcases List.mem_append.mp member with address | grain
  · exact (plain.1.address _ address).2 rfl
  · rcases List.mem_cons.mp grain with mark | grain
    · exact absurd mark (by decide)
    · exact Grain.identifier_plain plain.2 _ grain rfl

theorem takeWhile_keyPart {c : Concept} (plain : c.Plain) :
    (keyPart c).toList.takeWhile (· != '@') = c.address.toList := by
  rw [toList_keyPart, List.takeWhile_append_of_pos, List.takeWhile_cons_of_neg (by decide),
    List.append_nil]
  intro char member
  exact bne_iff_ne.mpr (plain.address char member).1

/-- The last text of a key. -/
def flag (acceptPartial : Bool) : String := if acceptPartial then "true" else "false"

/-- The other texts of a key. -/
def keyParts (request : List Concept) : List (List Char) :=
  (Names.ofList (request.map keyPart)).map String.toList

theorem flag_plain (acceptPartial : Bool) :
    '-' ∉ (flag acceptPartial).toList ∧ '@' ∉ (flag acceptPartial).toList := by
  cases acceptPartial <;> decide

theorem mem_keyParts {request : List Concept} {text : List Char} :
    text ∈ keyParts request ↔ ∃ c ∈ request, text = (keyPart c).toList := by
  simp only [keyParts, List.mem_map, Names.mem_ofList]
  constructor
  · rintro ⟨_, ⟨c, asked, rfl⟩, rfl⟩
    exact ⟨c, asked, rfl⟩
  · rintro ⟨c, asked, rfl⟩
    exact ⟨_, ⟨c, asked, rfl⟩, rfl⟩

/-- The flag stands after the last dash of a key. -/
theorem splitOn_key (request : List Concept) (acceptPartial : Bool) :
    (key request acceptPartial).toList.splitOn '-' =
      (['-'].intercalate (keyParts request)).splitOn '-' ++ [(flag acceptPartial).toList] := by
  have chars : (key request acceptPartial).toList =
      ['-'].intercalate (keyParts request) ++ '-' :: (flag acceptPartial).toList := by
    simp [key, keyParts, flag]
  rw [chars, List.splitOn_append_cons_self, List.splitOn_eq_singleton (flag_plain acceptPartial).1]

/-- The texts with a mark between the dashes of a key are the concepts of the request. -/
theorem mem_splitOn_key {request : List Concept} {acceptPartial : Bool} {text : List Char}
    (plain : ∀ c ∈ request, PlainPart c) (marked : '@' ∈ text) :
    text ∈ (key request acceptPartial).toList.splitOn '-' ↔
      ∃ c ∈ request, text = (keyPart c).toList := by
  have noDash : ∀ part ∈ keyParts request, '-' ∉ part := by
    intro part member
    obtain ⟨c, asked, rfl⟩ := mem_keyParts.mp member
    exact dash_not_mem_keyPart (plain c asked)
  have notFlag : text ≠ (flag acceptPartial).toList := fun same =>
    (flag_plain acceptPartial).2 (same ▸ marked)
  rw [splitOn_key, ← mem_keyParts, List.mem_append, List.mem_singleton]
  by_cases none : keyParts request = []
  · -- the empty request has one empty text before its flag
    have notEmpty : text ≠ [] := List.ne_nil_of_mem marked
    simp [none, notFlag, notEmpty]
  · rw [List.splitOn_intercalate '-' noDash none]
    simp [notFlag]

/-- Requests with the same key ask for the same addresses. -/
theorem exists_address_of_key_eq {request other : List Concept} {acceptPartial otherPartial : Bool}
    (plain : ∀ c ∈ request, PlainPart c) (otherPlain : ∀ c ∈ other, PlainPart c)
    (same : key other otherPartial = key request acceptPartial) {c : Concept}
    (asked : c ∈ request) : ∃ d ∈ other, d.address = c.address := by
  have marked : '@' ∈ (keyPart c).toList := by simp [toList_keyPart]
  have listed : (keyPart c).toList ∈ (key request acceptPartial).toList.splitOn '-' :=
    (mem_splitOn_key plain marked).mpr ⟨c, asked, rfl⟩
  rw [← same] at listed
  obtain ⟨d, member, equal⟩ := (mem_splitOn_key otherPlain marked).mp listed
  refine ⟨d, member, String.toList_inj.mp ?_⟩
  rw [← takeWhile_keyPart (otherPlain d member).1, ← takeWhile_keyPart (plain c asked).1, equal]

theorem address_of_key_eq {c d : Concept} {acceptPartial otherPartial : Bool} (plain : PlainPart c)
    (otherPlain : PlainPart d) (same : key [c] acceptPartial = key [d] otherPartial) :
    c.address = d.address := by
  obtain ⟨x, listed, address⟩ := exists_address_of_key_eq
    (List.forall_mem_singleton.mpr otherPlain) (List.forall_mem_singleton.mpr plain) same
    List.mem_cons_self
  rwa [List.mem_singleton.mp listed] at address

end History

end SemanticQuery
