import Mathlib.Data.List.Nodup
import SemanticQuery.Names

/-!
Sets of names and maps keyed by names are determined by their members and entries.
-/

namespace SemanticQuery

namespace Names

/-- Increasing lists with the same names are the same. -/
theorem eq_of_increasing {a b : List String} (increasing : a.Pairwise (· < ·))
    (otherIncreasing : b.Pairwise (· < ·)) (same : ∀ name, name ∈ a ↔ name ∈ b) : a = b := by
  have permuted : a.Perm b :=
    (List.perm_ext_iff_of_nodup (increasing.imp String.ne_of_lt)
      (otherIncreasing.imp String.ne_of_lt)).mpr same
  refine List.Perm.eq_of_pairwise ?_ increasing otherIncreasing permuted
  intro x y _ _ lt gt
  exact absurd (String.lt_trans lt gt) (String.lt_irrefl x)

/-- The ordered list of a set of names is determined by its members. -/
theorem ofList_congr {a b : List String} (same : ∀ name, name ∈ a ↔ name ∈ b) :
    ofList a = ofList b :=
  eq_of_increasing (pairwise_ofList a) (pairwise_ofList b) fun name => by
    rw [mem_ofList, mem_ofList, same]

/-- Taking out a name that was put in gives the list back. -/
theorem filter_insert {name : String} {names : List String} (absent : name ∉ names) :
    (insert name names).filter (· != name) = names := by
  induction names with
  | nil => simp [insert]
  | cons first rest ih =>
    have others : (first :: rest).filter (· != name) = first :: rest := by
      rw [List.filter_eq_self]
      intro other member
      exact bne_iff_ne.mpr fun same => absent (same ▸ member)
    simp only [List.mem_cons, not_or] at absent
    unfold insert
    split
    · rw [List.filter_cons_of_neg (by simp), others]
    · split
      · next same => exact absurd same absent.1
      · rw [List.filter_cons_of_pos (by simpa using Ne.symm absent.1), ih absent.2]

end Names

namespace NameMap

variable {α : Type u}

theorem increasing_keys (m : NameMap α) : m.keys.Pairwise (· < ·) :=
  List.pairwise_map.mpr m.increasing

theorem mem_entries_of_get? {m : NameMap α} {name : String} {value : α}
    (held : m.get? name = some value) : (name, value) ∈ m.entries := by
  obtain ⟨entry, found, rfl⟩ := Option.map_eq_some_iff.mp held
  have same : entry.1 = name := by simpa using List.find?_some found
  rw [← same]
  exact List.mem_of_find?_eq_some found

theorem mem_entries_iff {m : NameMap α} {name : String} {value : α} :
    (name, value) ∈ m.entries ↔ m.get? name = some value := by
  constructor
  · intro member
    cases held : m.get? name with
    | none => exact absurd (List.mem_map_of_mem member) (get?_eq_none_iff.mp held)
    | some other =>
      have distinct : (m.entries.map (·.1)).Nodup := m.increasing_keys.imp String.ne_of_lt
      cases List.inj_on_of_nodup_map distinct member (mem_entries_of_get? held) rfl
      rfl
  · exact mem_entries_of_get?

theorem mem_entries_insert {m : NameMap α} {name : String} {value : α} {entry : String × α}
    (member : entry ∈ (m.insert name value).entries) : entry = (name, value) ∨ entry ∈ m.entries :=
  eq_or_mem_of_mem_place member

theorem mem_entries_foldl_insert {entries : List (String × α)} {m : NameMap α}
    {entry : String × α}
    (member : entry ∈ (entries.foldl (fun m entry => m.insert entry.1 entry.2) m).entries) :
    entry ∈ m.entries ∨ entry ∈ entries := by
  induction entries generalizing m with
  | nil => exact .inl member
  | cons first rest ih =>
    rcases ih member with inserted | later
    · rcases mem_entries_insert inserted with rfl | before
      · exact .inr List.mem_cons_self
      · exact .inl before
    · exact .inr (List.mem_cons_of_mem _ later)

theorem mem_of_mem_ofList {entries : List (String × α)} {entry : String × α}
    (member : entry ∈ (ofList entries).entries) : entry ∈ entries :=
  (mem_entries_foldl_insert member).resolve_left List.not_mem_nil

theorem mem_keys_foldl_insert {entries : List (String × α)} {m : NameMap α} {name : String} :
    name ∈ (entries.foldl (fun m entry => m.insert entry.1 entry.2) m).keys ↔
      name ∈ m.keys ∨ name ∈ entries.map (·.1) := by
  induction entries generalizing m with
  | nil => simp
  | cons first rest ih =>
    rw [List.foldl_cons, ih, mem_keys_insert, List.map_cons, List.mem_cons, or_assoc, or_left_comm]

@[simp] theorem mem_keys_ofList {entries : List (String × α)} {name : String} :
    name ∈ (ofList entries).keys ↔ name ∈ entries.map (·.1) :=
  mem_keys_foldl_insert.trans (or_iff_right List.not_mem_nil)

/-- A name of the list is mapped to one of the values that it has there. -/
theorem exists_get?_ofList {entries : List (String × α)} {name : String}
    (listed : name ∈ entries.map (·.1)) :
    ∃ value, (ofList entries).get? name = some value ∧ (name, value) ∈ entries := by
  cases held : (ofList entries).get? name with
  | none => exact absurd (mem_keys_ofList.mpr listed) (get?_eq_none_iff.mp held)
  | some value => exact ⟨value, rfl, mem_of_mem_ofList (mem_entries_of_get? held)⟩

end NameMap

end SemanticQuery
