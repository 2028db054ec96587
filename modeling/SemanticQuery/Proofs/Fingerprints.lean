import SemanticQuery.Concept.Declare
import SemanticQuery.Proofs.Encodings
import SemanticQuery.Proofs.JsonTexts
import SemanticQuery.Proofs.Units

/-!
Fingerprints and the names that end in them. A fingerprint is eight lowercase hexadecimal digits, so
it can be read off the end of a name. What it is taken of, the JSON text of a condition, determines
the condition as long as no float literal is in it. Two queries of one name can therefore have
different filters only if the cut digests of two different texts coincide.
-/

namespace SemanticQuery

/-- A lowercase hexadecimal digit. -/
def IsHexDigit (c : Char) : Prop := c.isDigit = true ∨ ('a' ≤ c ∧ c ≤ 'f')

instance : DecidablePred IsHexDigit := fun c =>
  inferInstanceAs (Decidable (c.isDigit = true ∨ ('a' ≤ c ∧ c ≤ 'f')))

theorem isHexDigit_digitChar : ∀ n < 16, IsHexDigit (Nat.digitChar n) := by decide

theorem Sha256.State.isHexDigit_hex {s : State} {c : Char} (member : c ∈ s.hex) : IsHexDigit c := by
  obtain ⟨w, -, written⟩ := List.mem_flatMap.mp member
  obtain ⟨shift, -, rfl⟩ := List.mem_map.mp written
  exact isHexDigit_digitChar _ (Nat.mod_lt _ (by omega))

theorem isHexDigit_fingerprint {j : Json} {c : Char} (member : c ∈ j.fingerprint.toList) :
    IsHexDigit c := by
  rw [Json.fingerprint, shortDigest, String.toList_ofList] at member
  exact Sha256.State.isHexDigit_hex (List.mem_of_mem_take member)

/-- Names that end in fingerprints show them. -/
theorem fingerprint_eq_of_append {front front' : String} {j k : Json}
    (same : front ++ j.fingerprint = front' ++ k.fingerprint) : j.fingerprint = k.fingerprint := by
  have chars := congrArg String.toList same
  rw [String.toList_append, String.toList_append] at chars
  have lengths : j.fingerprint.toList.length = k.fingerprint.toList.length := by
    rw [length_fingerprint, length_fingerprint]
  exact String.toList_inj.mp (List.append_inj' chars lengths).2

/-- Two different texts whose digests begin with the same eight digits. -/
structure Collision (text other : String) : Prop where
  ne : text ≠ other
  digest : shortDigest text = shortDigest other

def Literal.isFloat : Literal → Bool
  | .float _ => true
  | _ => false

mutual

/-- Whether a float literal stands anywhere in the concept: in its keys, its derivation or its
grain. -/
def Concept.hasFloat : Concept → Bool
  | ⟨_, _, _, _, lineage, _, keys, grain⟩ =>
    Lineage.hasFloatOption lineage || Concept.anyFloat keys || grain.hasFloat

def Concept.anyFloat : List Concept → Bool
  | [] => false
  | c :: cs => c.hasFloat || Concept.anyFloat cs

def Grain.hasFloat : Grain → Bool
  | ⟨components, _⟩ => Concept.anyFloat components

def Lineage.hasFloatOption : Option Lineage → Bool
  | none => false
  | some lineage => lineage.hasFloat

def Lineage.hasFloat : Lineage → Bool
  | .call call => call.hasFloat
  | .window window => window.hasFloat
  | .filter content condition => content.hasFloat || condition.hasFloat
  | .aggregate aggregate => aggregate.hasFloat
  | .multiSelect multi => multi.hasFloat

def Call.hasFloat : Call → Bool
  | ⟨_, arguments, _, _⟩ => Expr.anyFloat arguments

def Aggregate.hasFloat : Aggregate → Bool
  | ⟨call, groupBy⟩ => call.hasFloat || Concept.anyFloat groupBy

def Expr.hasFloat : Expr → Bool
  | .concept c => c.hasFloat
  | .literal l => l.isFloat
  | .call call => call.hasFloat
  | .aggregate aggregate => aggregate.hasFloat
  | .case branches otherwise => Branch.anyFloat branches || Expr.hasFloatOption otherwise
  | .datatype _ => false
  | .list items => items.any (·.isFloat)

def Expr.anyFloat : List Expr → Bool
  | [] => false
  | e :: es => e.hasFloat || Expr.anyFloat es

def Expr.hasFloatOption : Option Expr → Bool
  | none => false
  | some e => e.hasFloat

def Branch.hasFloat : Branch → Bool
  | ⟨condition, result⟩ => condition.hasFloat || result.hasFloat

def Branch.anyFloat : List Branch → Bool
  | [] => false
  | b :: bs => b.hasFloat || Branch.anyFloat bs

def Condition.hasFloat : Condition → Bool
  | .compare left right _ => left.hasFloat || right.hasFloat
  | .combine left right _ => left.hasFloat || right.hasFloat
  | .parenthesis inner => inner.hasFloat

def Window.hasFloat : Window → Bool
  | ⟨_, content, orderBy, partitions, _⟩ =>
    content.hasFloat || OrderItem.anyFloat orderBy || Concept.anyFloat partitions

def OrderItem.hasFloat : OrderItem → Bool
  | ⟨concept, _⟩ => concept.hasFloat

def OrderItem.anyFloat : List OrderItem → Bool
  | [] => false
  | item :: items => item.hasFloat || OrderItem.anyFloat items

def OrderItem.clauseHasFloat : Option (List OrderItem) → Bool
  | none => false
  | some items => OrderItem.anyFloat items

def Condition.clauseHasFloat : Option Condition → Bool
  | none => false
  | some condition => condition.hasFloat

def SelectItem.hasFloat : SelectItem → Bool
  | .concept c _ => c.hasFloat
  | .transform call output _ => call.hasFloat || output.hasFloat

def SelectItem.anyFloat : List SelectItem → Bool
  | [] => false
  | item :: items => item.hasFloat || SelectItem.anyFloat items

def Select.hasFloat : Select → Bool
  | ⟨selection, condition, orderBy, _⟩ =>
    SelectItem.anyFloat selection || Condition.clauseHasFloat condition ||
      OrderItem.clauseHasFloat orderBy

def Select.anyFloat : List Select → Bool
  | [] => false
  | s :: ss => s.hasFloat || Select.anyFloat ss

def AlignItem.hasFloat : AlignItem → Bool
  | ⟨_, concepts⟩ => Concept.anyFloat concepts

def AlignItem.anyFloat : List AlignItem → Bool
  | [] => false
  | item :: items => item.hasFloat || AlignItem.anyFloat items

def MultiSelect.hasFloat : MultiSelect → Bool
  | ⟨selects, align, _⟩ => Select.anyFloat selects || AlignItem.anyFloat align

end

theorem Json.hasFloat_tagged (label : String) (value : Json) :
    (tagged label value).hasFloat = value.hasFloat := by
  simp [tagged]

theorem Json.anyFloat_map {f : α → Json} {isFloat : α → Bool}
    (same : ∀ x, (f x).hasFloat = isFloat x) (xs : List α) :
    Json.anyFloat (xs.map f) = xs.any isFloat := by
  induction xs with
  | nil => rfl
  | cons x xs ih => simp [same, ih]

theorem Json.hasFloat_ofOption {f : α → Json} (free : ∀ x, (f x).hasFloat = false) (x : Option α) :
    (ofOption f x).hasFloat = false := by
  cases x with
  | none => rfl
  | some x => exact free x

theorem Metadata.hasFloat_toJson (m : Metadata) : m.toJson.hasFloat = false := by
  simp [Metadata.toJson, Json.hasFloat_ofOption (f := Json.string) (fun _ => rfl),
    Json.hasFloat_ofOption (f := Json.ofNat) (fun _ => rfl)]

theorem Literal.hasFloat_toJson (l : Literal) : l.toJson.hasFloat = l.isFloat := by
  cases l <;> rfl

theorem Modifier.hasFloat_toJson (ms : List Modifier) :
    (Json.ofList Modifier.toJson ms).hasFloat = false := by
  rw [Json.ofList, Json.hasFloat, Json.anyFloat_map (f := Modifier.toJson) (fun _ => rfl)]
  exact List.any_eq_false.mpr fun _ _ => Bool.false_ne_true

mutual

/-- The form of a concept has floats where the concept has float literals. -/
theorem Concept.hasFloat_toJson : (c : Concept) → c.toJson.hasFloat = c.hasFloat
  | ⟨name, datatype, purpose, metadata, lineage, ns, keys, grain⟩ => by
    simp [Concept.toJson, Concept.hasFloat, metadata.hasFloat_toJson,
      Lineage.hasFloat_toJsonOption lineage, Concept.anyFloat_toJsonAll keys, grain.hasFloat_toJson,
      Bool.or_assoc]

theorem Concept.anyFloat_toJsonAll :
    (cs : List Concept) → Json.anyFloat (Concept.toJsonAll cs) = Concept.anyFloat cs
  | [] => rfl
  | c :: cs => by
    simp [Concept.toJsonAll, Concept.anyFloat, c.hasFloat_toJson, Concept.anyFloat_toJsonAll cs]

theorem Grain.hasFloat_toJson : (g : Grain) → g.toJson.hasFloat = g.hasFloat
  | ⟨components, _⟩ => by
    simp [Grain.toJson, Grain.hasFloat, Concept.anyFloat_toJsonAll components]

theorem Lineage.hasFloat_toJsonOption : (lineage : Option Lineage) →
    (Lineage.toJsonOption lineage).hasFloat = Lineage.hasFloatOption lineage
  | none => rfl
  | some lineage => lineage.hasFloat_toJson

theorem Lineage.hasFloat_toJson : (lineage : Lineage) → lineage.toJson.hasFloat = lineage.hasFloat
  | .call call => by
    simp [Lineage.toJson, Lineage.hasFloat, Json.hasFloat_tagged, call.hasFloat_toJson]
  | .window window => by
    simp [Lineage.toJson, Lineage.hasFloat, Json.hasFloat_tagged, window.hasFloat_toJson]
  | .filter content condition => by
    simp [Lineage.toJson, Lineage.hasFloat, Json.hasFloat_tagged, content.hasFloat_toJson,
      condition.hasFloat_toJson]
  | .aggregate aggregate => by
    simp [Lineage.toJson, Lineage.hasFloat, Json.hasFloat_tagged, aggregate.hasFloat_toJson]
  | .multiSelect multi => by
    simp [Lineage.toJson, Lineage.hasFloat, Json.hasFloat_tagged, multi.hasFloat_toJson]

theorem Call.hasFloat_toJson : (f : Call) → f.toJson.hasFloat = f.hasFloat
  | ⟨_, arguments, _, _⟩ => by
    simp [Call.toJson, Call.hasFloat, Expr.anyFloat_toJsonAll arguments]

theorem Aggregate.hasFloat_toJson : (a : Aggregate) → a.toJson.hasFloat = a.hasFloat
  | ⟨call, groupBy⟩ => by
    simp [Aggregate.toJson, Aggregate.hasFloat, call.hasFloat_toJson,
      Concept.anyFloat_toJsonAll groupBy]

theorem Expr.hasFloat_toJson : (e : Expr) → e.toJson.hasFloat = e.hasFloat
  | .concept c => by simp [Expr.toJson, Expr.hasFloat, Json.hasFloat_tagged, c.hasFloat_toJson]
  | .literal l => by simp [Expr.toJson, Expr.hasFloat, Json.hasFloat_tagged, l.hasFloat_toJson]
  | .call call => by
    simp [Expr.toJson, Expr.hasFloat, Json.hasFloat_tagged, call.hasFloat_toJson]
  | .aggregate aggregate => by
    simp [Expr.toJson, Expr.hasFloat, Json.hasFloat_tagged, aggregate.hasFloat_toJson]
  | .case branches otherwise => by
    simp [Expr.toJson, Expr.hasFloat, Json.hasFloat_tagged, Branch.anyFloat_toJsonAll branches,
      Expr.hasFloat_toJsonOption otherwise]
  | .datatype _ => rfl
  | .list items => by
    simp [Expr.toJson, Expr.hasFloat, Json.hasFloat_tagged, Json.ofList,
      Json.anyFloat_map Literal.hasFloat_toJson]

theorem Expr.anyFloat_toJsonAll :
    (es : List Expr) → Json.anyFloat (Expr.toJsonAll es) = Expr.anyFloat es
  | [] => rfl
  | e :: es => by
    simp [Expr.toJsonAll, Expr.anyFloat, e.hasFloat_toJson, Expr.anyFloat_toJsonAll es]

theorem Expr.hasFloat_toJsonOption : (e : Option Expr) →
    (Expr.toJsonOption e).hasFloat = Expr.hasFloatOption e
  | none => rfl
  | some e => e.hasFloat_toJson

theorem Branch.hasFloat_toJson : (b : Branch) → b.toJson.hasFloat = b.hasFloat
  | ⟨condition, result⟩ => by
    simp [Branch.toJson, Branch.hasFloat, condition.hasFloat_toJson, result.hasFloat_toJson]

theorem Branch.anyFloat_toJsonAll :
    (bs : List Branch) → Json.anyFloat (Branch.toJsonAll bs) = Branch.anyFloat bs
  | [] => rfl
  | b :: bs => by
    simp [Branch.toJsonAll, Branch.anyFloat, b.hasFloat_toJson, Branch.anyFloat_toJsonAll bs]

theorem Condition.hasFloat_toJson : (c : Condition) → c.toJson.hasFloat = c.hasFloat
  | .compare left right _ => by
    simp [Condition.toJson, Condition.hasFloat, Json.hasFloat_tagged, left.hasFloat_toJson,
      right.hasFloat_toJson]
  | .combine left right _ => by
    simp [Condition.toJson, Condition.hasFloat, Json.hasFloat_tagged, left.hasFloat_toJson,
      right.hasFloat_toJson]
  | .parenthesis inner => by
    simp [Condition.toJson, Condition.hasFloat, Json.hasFloat_tagged, inner.hasFloat_toJson]

theorem Window.hasFloat_toJson : (w : Window) → w.toJson.hasFloat = w.hasFloat
  | ⟨_, content, orderBy, partitions, _⟩ => by
    simp [Window.toJson, Window.hasFloat, content.hasFloat_toJson,
      OrderItem.anyFloat_toJsonAll orderBy, Concept.anyFloat_toJsonAll partitions,
      Json.hasFloat_ofOption (f := Json.int) (fun _ => rfl), Bool.or_assoc]

theorem OrderItem.hasFloat_toJson : (i : OrderItem) → i.toJson.hasFloat = i.hasFloat
  | ⟨concept, _⟩ => by simp [OrderItem.toJson, OrderItem.hasFloat, concept.hasFloat_toJson]

theorem OrderItem.anyFloat_toJsonAll :
    (is : List OrderItem) → Json.anyFloat (OrderItem.toJsonAll is) = OrderItem.anyFloat is
  | [] => rfl
  | i :: is => by
    simp [OrderItem.toJsonAll, OrderItem.anyFloat, i.hasFloat_toJson,
      OrderItem.anyFloat_toJsonAll is]

theorem OrderItem.hasFloat_toJsonClause : (is : Option (List OrderItem)) →
    (OrderItem.toJsonClause is).hasFloat = OrderItem.clauseHasFloat is
  | none => rfl
  | some is => by
    simp [OrderItem.toJsonClause, OrderItem.clauseHasFloat, OrderItem.anyFloat_toJsonAll is]

theorem Condition.hasFloat_toJsonClause : (c : Option Condition) →
    (Condition.toJsonClause c).hasFloat = Condition.clauseHasFloat c
  | none => rfl
  | some c => by simp [Condition.toJsonClause, Condition.clauseHasFloat, c.hasFloat_toJson]

theorem SelectItem.hasFloat_toJson : (i : SelectItem) → i.toJson.hasFloat = i.hasFloat
  | .concept c modifiers => by
    simp [SelectItem.toJson, SelectItem.hasFloat, Json.hasFloat_tagged, c.hasFloat_toJson,
      Modifier.hasFloat_toJson]
  | .transform call output modifiers => by
    simp [SelectItem.toJson, SelectItem.hasFloat, Json.hasFloat_tagged, call.hasFloat_toJson,
      output.hasFloat_toJson, Modifier.hasFloat_toJson]

theorem SelectItem.anyFloat_toJsonAll :
    (is : List SelectItem) → Json.anyFloat (SelectItem.toJsonAll is) = SelectItem.anyFloat is
  | [] => rfl
  | i :: is => by
    simp [SelectItem.toJsonAll, SelectItem.anyFloat, i.hasFloat_toJson,
      SelectItem.anyFloat_toJsonAll is]

theorem Select.hasFloat_toJson : (s : Select) → s.toJson.hasFloat = s.hasFloat
  | ⟨selection, condition, orderBy, _⟩ => by
    simp [Select.toJson, Select.hasFloat, SelectItem.anyFloat_toJsonAll selection,
      Condition.hasFloat_toJsonClause condition, OrderItem.hasFloat_toJsonClause orderBy,
      Json.hasFloat_ofOption (f := Json.ofNat) (fun _ => rfl), Bool.or_assoc]

theorem Select.anyFloat_toJsonAll :
    (ss : List Select) → Json.anyFloat (Select.toJsonAll ss) = Select.anyFloat ss
  | [] => rfl
  | s :: ss => by
    simp [Select.toJsonAll, Select.anyFloat, s.hasFloat_toJson, Select.anyFloat_toJsonAll ss]

theorem AlignItem.hasFloat_toJson : (i : AlignItem) → i.toJson.hasFloat = i.hasFloat
  | ⟨_, concepts⟩ => by
    simp [AlignItem.toJson, AlignItem.hasFloat, Concept.anyFloat_toJsonAll concepts]

theorem AlignItem.anyFloat_toJsonAll :
    (is : List AlignItem) → Json.anyFloat (AlignItem.toJsonAll is) = AlignItem.anyFloat is
  | [] => rfl
  | i :: is => by
    simp [AlignItem.toJsonAll, AlignItem.anyFloat, i.hasFloat_toJson,
      AlignItem.anyFloat_toJsonAll is]

theorem MultiSelect.hasFloat_toJson : (m : MultiSelect) → m.toJson.hasFloat = m.hasFloat
  | ⟨selects, align, _⟩ => by
    simp [MultiSelect.toJson, MultiSelect.hasFloat, Select.anyFloat_toJsonAll selects,
      AlignItem.anyFloat_toJsonAll align]

end

/-- The name of a filtered query ends in the fingerprint of its condition. -/
theorem Query.identifier_filtered {q : Query} {c : Condition} (filtered : q.condition = some c) :
    ∃ front, q.identifier = front ++ c.toJson.fingerprint := by
  rw [identifier_eq, filtered, nameOf, Condition.fingerprint, ← String.append_assoc]
  exact ⟨_, rfl⟩

/-- The text that the fingerprint of a condition without floats is taken of determines the
condition, so queries of one name have different filters only where two texts collide. -/
theorem Condition.compact_determines {c d : Condition} (free : c.hasFloat = false)
    (otherFree : d.hasFloat = false) :
    (c.toJson.compact = d.toJson.compact → c = d) ∧
      ∀ q r : Query, q.condition = some c → r.condition = some d →
        q.identifier = r.identifier → c = d ∨ Collision c.toJson.compact d.toJson.compact := by
  have determines : c.toJson.compact = d.toJson.compact → c = d := by
    intro same
    apply Condition.toJson_inj
    exact Json.compact_inj (c.hasFloat_toJson.trans free) (d.hasFloat_toJson.trans otherFree) same
  refine ⟨determines, fun q r filtered otherFiltered same => ?_⟩
  obtain ⟨front, named⟩ := Query.identifier_filtered filtered
  obtain ⟨front', named'⟩ := Query.identifier_filtered otherFiltered
  rw [named, named'] at same
  by_cases equal : c = d
  · exact .inl equal
  · exact .inr ⟨fun texts => equal (determines texts), fingerprint_eq_of_append same⟩

namespace Regions

def region : Concept := .key "region" .string

/-- The regions in a list. -/
def among (names : List String) : Condition :=
  .compare (.concept region) (.list (names.map .string)) .isIn

/-- A name that spells out where one item of a list ends and the next begins. -/
def spelledOut : String := "north\"\x7d,\x7b\"String\":\"south"

end Regions

open Regions in
theorem Condition.compact_determines_spelledOut :
    (among ["north", "south"]).hasFloat = false ∧ (among [spelledOut]).hasFloat = false ∧
      (among ["north", "south"]).toJson.compact ≠ (among [spelledOut]).toJson.compact ∧
      ∀ q r : Query, q.condition = some (among ["north", "south"]) →
        r.condition = some (among [spelledOut]) → q.identifier = r.identifier →
        Collision (among ["north", "south"]).toJson.compact
          (among [spelledOut]).toJson.compact := by
  have free : (among ["north", "south"]).hasFloat = false := rfl
  have otherFree : (among [spelledOut]).hasFloat = false := rfl
  have apart : among ["north", "south"] ≠ among [spelledOut] := by simp [among]
  obtain ⟨determines, named⟩ := compact_determines free otherFree
  refine ⟨free, otherFree, fun same => apart (determines same), ?_⟩
  intro q r filtered otherFiltered same
  exact (named q r filtered otherFiltered same).resolve_left apart

end SemanticQuery
