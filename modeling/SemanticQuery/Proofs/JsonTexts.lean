import SemanticQuery.Text.JsonReader

/-!
The text of a JSON value determines the value, as long as no floats are in it: floats that are not
numbers share a text. Strings are read back by the reader; integers end where no digit follows; and
the first character of a text tells the kind of the value, so that lists and objects are followed
item by item.
-/

namespace SemanticQuery.Json

mutual

/-- Whether a float stands anywhere in the value. -/
@[simp] def hasFloat : Json → Bool
  | .float _ => true
  | .array items => anyFloat items
  | .object members => anyMemberFloat members
  | _ => false

@[simp] def anyFloat : List Json → Bool
  | [] => false
  | item :: items => hasFloat item || anyFloat items

@[simp] def memberHasFloat : String × Json → Bool
  | (_, value) => hasFloat value

@[simp] def anyMemberFloat : List (String × Json) → Bool
  | [] => false
  | member :: members => memberHasFloat member || anyMemberFloat members

end

/-- The escape of a control character names its code point. -/
theorem unit?_control : ∀ n < 0x20,
    (unit? '0' '0' (Nat.digitChar (n / 16)) (Nat.digitChar (n % 16))).bind unpaired? =
      some (Char.ofNat n) := by decide

/-- A character that needs no escape stands for itself. -/
theorem stringRest_cons {c : Char} (noQuote : c ≠ '"') (noEscape : c ≠ '\\')
    (visible : ¬ c.toNat < 0x20) (cs : List Char) :
    stringRest (c :: cs) = before c (stringRest cs) := by
  rw [stringRest.eq_def]
  split
  · next empty => cases empty
  · next quoted => exact absurd (List.cons.inj quoted).1 noQuote
  · next escaped => exact absurd (List.cons.inj escaped).1 noEscape
  · next escaped => exact absurd (List.cons.inj escaped).1 noEscape
  · next same =>
    cases same
    exact if_neg visible

theorem stringRest_escape (c : Char) (cs : List Char) :
    stringRest (escape c ++ cs) = before c (stringRest cs) := by
  unfold escape
  split
  iterate 7 rfl
  · next noQuote noEscape _ _ _ _ _ =>
    split
    · next control =>
      have unit := unit?_control c.toNat control
      rw [Char.ofNat_toNat] at unit
      rw [stringRest.eq_def]
      simp only [List.cons_append, List.nil_append, unit]
    · next visible => exact stringRest_cons noQuote noEscape visible cs

/-- What was written as a string is read as it was. -/
theorem stringRest_quoteOnto (rest cs : List Char) :
    stringRest (quoteOnto rest cs) = some (cs, rest) := by
  induction cs with
  | nil => rfl
  | cons c cs ih =>
    rw [quoteOnto, stringRest_escape, ih]
    rfl

theorem quote_inj {s t : String} {rest other : List Char} (same : quote s rest = quote t other) :
    s = t ∧ rest = other := by
  have read : some (s.toList, rest) = some (t.toList, other) := by
    rw [← stringRest_quoteOnto, ← stringRest_quoteOnto, (List.cons.inj same).2]
  have parts := Prod.mk.inj (Option.some.inj read)
  exact ⟨String.toList_inj.mp parts.1, parts.2⟩

/-- What follows a value does not go on with a digit. -/
def Ended (rest : List Char) : Prop := ∀ c ∈ rest.head?, c.isDigit = false

section Numbers

variable {rest other : List Char}

theorem takeWhile_toDigits (n : Nat) (ended : Ended rest) :
    (Nat.toDigits 10 n ++ rest).takeWhile Char.isDigit = Nat.toDigits 10 n := by
  have none : rest.takeWhile Char.isDigit = [] := by
    cases rest with
    | nil => rfl
    | cons c cs => rw [List.takeWhile_cons_of_neg (by simp [ended c rfl])]
  rw [List.takeWhile_append_of_pos fun c => Nat.isDigit_of_mem_toDigits (by omega) (by omega), none,
    List.append_nil]

theorem toDigits_append_inj {n m : Nat} (ended : Ended rest) (otherEnded : Ended other)
    (same : Nat.toDigits 10 n ++ rest = Nat.toDigits 10 m ++ other) : n = m ∧ rest = other := by
  have digits : Nat.toDigits 10 n = Nat.toDigits 10 m := by
    rw [← takeWhile_toDigits n ended, ← takeWhile_toDigits m otherEnded, same]
  have equal : n = m := by
    rw [← @Nat.ofDigitChars_ten_toDigits n, digits, Nat.ofDigitChars_ten_toDigits]
  rw [digits, List.append_cancel_left_eq] at same
  exact ⟨equal, same⟩

theorem head_toDigits (n : Nat) : ∃ c cs, Nat.toDigits 10 n = c :: cs ∧ c.isDigit = true := by
  obtain ⟨c, cs, digits⟩ :=
    List.exists_cons_of_ne_nil (Nat.toDigits_ne_nil : Nat.toDigits 10 n ≠ [])
  have member : c ∈ Nat.toDigits 10 n := digits ▸ List.mem_cons_self
  exact ⟨c, cs, digits, Nat.isDigit_of_mem_toDigits (by omega) (by omega) member⟩

/-- Digits do not start with a sign. -/
theorem toDigits_append_ne (n : Nat) (cs : List Char) : Nat.toDigits 10 n ++ rest ≠ '-' :: cs := by
  obtain ⟨c, ds, digits, digit⟩ := head_toDigits n
  rw [digits]
  rintro ⟨⟩
  exact absurd digit (by decide)

theorem integer_append_inj {n m : Int} (ended : Ended rest) (otherEnded : Ended other)
    (same : integer n ++ rest = integer m ++ other) : n = m ∧ rest = other := by
  unfold integer at same
  split at same <;> split at same
  · obtain ⟨equal, rests⟩ := toDigits_append_inj ended otherEnded (List.cons.inj same).2
    exact ⟨by omega, rests⟩
  · exact absurd same.symm (toDigits_append_ne _ _)
  · exact absurd same (toDigits_append_ne _ _)
  · obtain ⟨equal, rests⟩ := toDigits_append_inj ended otherEnded same
    exact ⟨by omega, rests⟩

end Numbers

/-- The first character of the text of a value, with a zero for every number. -/
def mark : Json → Char
  | .null => 'n'
  | .bool true => 't'
  | .bool false => 'f'
  | .int _ | .float _ => '0'
  | .string _ => '"'
  | .array _ => '['
  | .object _ => '\x7b'

def markOf (c : Char) : Char := if c.isDigit || c == '-' then '0' else c

theorem markOf_head_integer (n : Int) (rest : List Char) :
    (integer n ++ rest).head?.map markOf = some '0' := by
  obtain ⟨c, cs, digits, digit⟩ := head_toDigits n.natAbs
  unfold integer
  split <;> simp [digits, markOf, digit]

theorem markOf_head_write (j : Json) (free : j.hasFloat = false) (rest : List Char) :
    (write rest j).head?.map markOf = some j.mark := by
  cases j with
  | null => rfl
  | bool value => cases value <;> rfl
  | int n => exact markOf_head_integer n rest
  | float x => cases free
  | string s => rfl
  | array items => cases items <;> rfl
  | object members => cases members <;> rfl

theorem ended_writeItems (rest : List Char) (items : List Json) :
    Ended (writeItems rest items) := by
  cases items <;> rintro c ⟨⟩ <;> decide

theorem ended_writeMembers (rest : List Char) (members : List (String × Json)) :
    Ended (writeMembers rest members) := by
  cases members <;> rintro c ⟨⟩ <;> decide

theorem mark_eq_of_write_eq {j k : Json} {rest other : List Char} (free : j.hasFloat = false)
    (otherFree : k.hasFloat = false) (same : write rest j = write other k) : j.mark = k.mark := by
  apply Option.some.inj
  rw [← markOf_head_write j free rest, ← markOf_head_write k otherFree other, same]

/-- A list that has items does not close at once. -/
theorem write_ne_close {j : Json} (free : j.hasFloat = false) (rest other : List Char) :
    write rest j ≠ ']' :: other := by
  intro same
  have marks : some j.mark = some ']' := by
    rw [← markOf_head_write j free rest, same]
    rfl
  cases j with
  | bool value => cases value <;> cases marks
  | _ => cases marks

mutual

/-- The text of a value determines the value and what follows the text. -/
theorem write_inj {rest other : List Char} (ended : Ended rest) (otherEnded : Ended other)
    (j k : Json) (free : j.hasFloat = false) (otherFree : k.hasFloat = false)
    (same : write rest j = write other k) : j = k ∧ rest = other := by
  have marks : j.mark = k.mark := mark_eq_of_write_eq free otherFree same
  match j, k with
  | .null, .null => simpa [write] using same
  | .bool true, .bool true => simpa [write] using same
  | .bool false, .bool false => simpa [write] using same
  | .int n, .int m =>
    obtain ⟨rfl, rests⟩ := integer_append_inj ended otherEnded same
    exact ⟨rfl, rests⟩
  | .string s, .string t =>
    obtain ⟨rfl, rests⟩ := quote_inj same
    exact ⟨rfl, rests⟩
  | .array [], .array [] => simpa [write] using same
  | .array [], .array (item :: items) =>
    have itemFree := (Bool.or_eq_false_iff.mp otherFree).1
    exact absurd (List.cons.inj same).2.symm (write_ne_close itemFree _ _)
  | .array (item :: items), .array [] =>
    have itemFree := (Bool.or_eq_false_iff.mp free).1
    exact absurd (List.cons.inj same).2 (write_ne_close itemFree _ _)
  | .array (item :: items), .array (item' :: others) =>
    -- Behind its bracket the first item is written as any other behind its comma.
    have led : writeItems rest (item :: items) = writeItems other (item' :: others) :=
      congrArg (',' :: ·) (List.cons.inj same).2
    obtain ⟨equal, rests⟩ := writeItems_inj (item :: items) (item' :: others) free otherFree led
    exact ⟨congrArg Json.array equal, rests⟩
  | .object [], .object [] => simpa [write] using same
  | .object [], .object ((_, _) :: _) => cases (List.cons.inj same).2
  | .object ((_, _) :: _), .object [] => cases (List.cons.inj same).2
  | .object (member :: members), .object (member' :: others) =>
    have led : writeMembers rest (member :: members) = writeMembers other (member' :: others) :=
      congrArg (',' :: ·) (List.cons.inj same).2
    obtain ⟨equal, rests⟩ :=
      writeMembers_inj (member :: members) (member' :: others) free otherFree led
    exact ⟨congrArg Json.object equal, rests⟩

theorem writeItems_inj {rest other : List Char} (items others : List Json)
    (free : anyFloat items = false) (otherFree : anyFloat others = false)
    (same : writeItems rest items = writeItems other others) : items = others ∧ rest = other := by
  match items, others with
  | [], [] => simpa [writeItems] using same
  | [], _ :: _ => cases same
  | _ :: _, [] => cases same
  | item :: items, item' :: others =>
    obtain ⟨itemFree, itemsFree⟩ := Bool.or_eq_false_iff.mp free
    obtain ⟨itemFree', othersFree⟩ := Bool.or_eq_false_iff.mp otherFree
    obtain ⟨rfl, tails⟩ := write_inj (ended_writeItems _ _) (ended_writeItems _ _) item item'
      itemFree itemFree' (List.cons.inj same).2
    obtain ⟨rfl, rests⟩ := writeItems_inj items others itemsFree othersFree tails
    exact ⟨rfl, rests⟩

theorem writeMember_inj {rest other : List Char} (ended : Ended rest) (otherEnded : Ended other)
    (m n : String × Json) (free : memberHasFloat m = false) (otherFree : memberHasFloat n = false)
    (same : writeMember rest m = writeMember other n) : m = n ∧ rest = other := by
  match m, n with
  | (key, value), (key', value') =>
    obtain ⟨rfl, values⟩ := quote_inj same
    obtain ⟨rfl, rests⟩ :=
      write_inj ended otherEnded value value' free otherFree (List.cons.inj values).2
    exact ⟨rfl, rests⟩

theorem writeMembers_inj {rest other : List Char} (members others : List (String × Json))
    (free : anyMemberFloat members = false) (otherFree : anyMemberFloat others = false)
    (same : writeMembers rest members = writeMembers other others) :
    members = others ∧ rest = other := by
  match members, others with
  | [], [] => simpa [writeMembers] using same
  | [], _ :: _ => cases same
  | _ :: _, [] => cases same
  | member :: members, member' :: others =>
    obtain ⟨memberFree, membersFree⟩ := Bool.or_eq_false_iff.mp free
    obtain ⟨memberFree', othersFree⟩ := Bool.or_eq_false_iff.mp otherFree
    obtain ⟨rfl, tails⟩ := writeMember_inj (ended_writeMembers _ _) (ended_writeMembers _ _) member
      member' memberFree memberFree' (List.cons.inj same).2
    obtain ⟨rfl, rests⟩ := writeMembers_inj members others membersFree othersFree tails
    exact ⟨rfl, rests⟩

end

/-- Values without floats have one text only if they are equal. -/
theorem compact_inj {j k : Json} (free : j.hasFloat = false) (otherFree : k.hasFloat = false)
    (same : j.compact = k.compact) : j = k := by
  have ended : Ended [] := by rintro c ⟨⟩
  exact (write_inj ended ended j k free otherFree (String.ofList_injective same)).1

end SemanticQuery.Json
