import Mathlib.Data.String.Basic
import SemanticQuery.Concept.Declare
import SemanticQuery.Cte.Lower
import SemanticQuery.Proofs.Fingerprints

/-!
Names of common table expressions. A name is made of characters of one byte each, so the cut by
characters keeps the limit in bytes; it keeps the fingerprint whole, so that names differ wherever
the fingerprints of the identifiers do.
-/

namespace SemanticQuery

/-- A character that a name may have: an ASCII letter, a digit or an underscore. -/
def IsWordChar (c : Char) : Prop := c.isAlphanum = true ∨ c = '_'

theorem IsHexDigit.isWordChar {c : Char} (hex : IsHexDigit c) : IsWordChar c := by
  refine .inl (Bool.or_eq_true_iff.mpr ?_)
  rcases hex with digit | ⟨least, most⟩
  · exact .inr digit
  · have below : c ≤ 'z' := most.trans (by decide)
    have lower : c.isLower = true :=
      Bool.and_eq_true_iff.mpr ⟨decide_eq_true least, decide_eq_true below⟩
    exact .inl (Bool.or_eq_true_iff.mpr (.inr lower))

theorem IsWordChar.utf8Size_eq {c : Char} (word : IsWordChar c) : c.utf8Size = 1 := by
  rw [Char.utf8Size_eq_one_iff]
  rcases word with alphanum | rfl
  · rcases Bool.or_eq_true_iff.mp alphanum with alpha | digit
    · rcases Bool.or_eq_true_iff.mp alpha with upper | lower
      · have most := (of_decide_eq_true upper).2
        exact UInt32.le_trans most (by decide)
      · have most := of_decide_eq_true (Bool.and_eq_true_iff.mp lower).2
        exact UInt32.le_trans most (by decide)
    · have most := of_decide_eq_true (Bool.and_eq_true_iff.mp digit).2
      exact UInt32.le_trans most (by decide)
  · decide

/-- Word characters have one byte each. -/
theorem utf8Len_of_isWordChar {cs : List Char} (words : ∀ c ∈ cs, IsWordChar c) :
    String.utf8Len cs = cs.length := by
  induction cs with
  | nil => rfl
  | cons c cs ih =>
    rw [String.utf8Len_cons, ih fun d member => words d (List.mem_cons_of_mem c member),
      (words c List.mem_cons_self).utf8Size_eq, List.length_cons]

namespace Query

variable {q : Query} {maxLength : Nat}

theorem toList_cteName (maxLength : Nat) (q : Query) :
    (q.cteName maxLength).toList =
      q.cteBase maxLength ++ '_' :: (Json.string q.identifier).fingerprint.toList := by
  simp [cteName, cteBase]

theorem isWordChar_cteBase {c : Char} (member : c ∈ q.cteBase maxLength) : IsWordChar c := by
  obtain ⟨char, -, rfl⟩ := List.mem_map.mp (List.mem_of_mem_take member)
  split
  · next alphanum => exact .inl alphanum
  · exact .inr rfl

theorem isWordChar_cteName {c : Char} (member : c ∈ (q.cteName maxLength).toList) :
    IsWordChar c := by
  rw [toList_cteName, List.mem_append, List.mem_cons] at member
  rcases member with front | rfl | hex
  · exact isWordChar_cteBase front
  · exact .inr rfl
  · exact (isHexDigit_fingerprint hex).isWordChar

theorem length_cteName_le (room : 9 ≤ maxLength) :
    (q.cteName maxLength).toList.length ≤ maxLength := by
  have front : (q.cteBase maxLength).length ≤ maxLength - 9 := List.length_take_le _ _
  rw [toList_cteName, List.length_append, List.length_cons, length_fingerprint]
  omega

theorem cteName_starts (room : 13 ≤ maxLength) :
    "cte_".toList <+: (q.cteName maxLength).toList := by
  obtain ⟨rest, enough⟩ : ∃ rest, Cte.baseLength maxLength = rest + 4 :=
    ⟨maxLength - 13, by rw [Cte.baseLength]; omega⟩
  rw [toList_cteName, cteBase, enough, String.toList_append, List.map_append]
  exact ⟨_, rfl⟩

/-- The name of an expression fits its limit in bytes, begins with `cte_` and has word characters
only; and it shows the fingerprint of the whole identifier, whatever the limit was. -/
theorem cteName_shows (room : 13 ≤ maxLength) :
    (q.cteName maxLength).utf8ByteSize ≤ maxLength ∧
      "cte_".toList <+: (q.cteName maxLength).toList ∧
      (∀ c ∈ (q.cteName maxLength).toList, IsWordChar c) ∧
      ∀ (r : Query) (otherLength : Nat), q.cteName maxLength = r.cteName otherLength →
        (Json.string q.identifier).fingerprint = (Json.string r.identifier).fingerprint := by
  have words : ∀ c ∈ (q.cteName maxLength).toList, IsWordChar c :=
    fun c member => isWordChar_cteName member
  refine ⟨?_, cteName_starts room, words, fun r otherLength same => ?_⟩
  · rw [← String.ofList_toList (s := q.cteName maxLength), String.utf8ByteSize_ofList,
      utf8Len_of_isWordChar words]
    exact length_cteName_le (by omega)
  · exact fingerprint_eq_of_append same

end Query

namespace Stalls

def stall : Concept := .key "stall" .integer

/-- All columns of a table of stalls. -/
def listing (table : String) : Query :=
  ⟨[stall], [stall], .ofList [(stall.address, [table])],
    [.datasource (.table table [⟨"id", stall, []⟩])], .of [stall], [], .directSelect, [], none,
    none⟩

end Stalls

open Stalls in
/-- Two tables whose names are written alike in word characters. -/
theorem Query.cteName_shows_stalls :
    13 ≤ 13 ∧ (listing "märkte.süd").cteBase 13 = (listing "m_rkte_s_d").cteBase 13 ∧
      ((listing "märkte.süd").cteName 13).utf8ByteSize ≤ 13 ∧
      "cte_".toList <+: ((listing "märkte.süd").cteName 13).toList ∧
      (∀ c ∈ ((listing "märkte.süd").cteName 13).toList, IsWordChar c) ∧
      ((listing "märkte.süd").cteName 13 = (listing "m_rkte_s_d").cteName 16 →
        (Json.string (listing "märkte.süd").identifier).fingerprint =
          (Json.string (listing "m_rkte_s_d").identifier).fingerprint) := by
  have room : 13 ≤ 13 := Nat.le_refl 13
  obtain ⟨size, starts, words, shows⟩ := cteName_shows (q := listing "märkte.süd") room
  exact ⟨room, by decide +kernel, size, starts, words, shows (listing "m_rkte_s_d") 16⟩

end SemanticQuery
