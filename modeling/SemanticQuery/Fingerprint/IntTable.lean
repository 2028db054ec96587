import SemanticQuery.Error
import SemanticQuery.Fingerprint

/-!
Tables of integers whose keys are lists of integers. JSON has no place for such keys, so the
fingerprint of a table that is not empty is taken of its displayed text.
-/

namespace SemanticQuery

/-- Entries in lexicographic order of their keys. -/
structure IntTable where
  entries : List (List Int × Int)

namespace IntTable

/-- Puts an entry in its place, which may be that of an earlier entry with its key. -/
def place (key : List Int) (value : Int) : List (List Int × Int) → List (List Int × Int)
  | [] => [(key, value)]
  | entry :: rest =>
    if key < entry.1 then (key, value) :: entry :: rest
    else if key = entry.1 then (key, value) :: rest
    else entry :: place key value rest

/-- The last value of a key counts. -/
def ofList (pairs : List (List Int × Int)) : IntTable :=
  ⟨pairs.foldl (fun entries pair => place pair.1 pair.2 entries) []⟩

def toJson (t : IntTable) : Except PlanError Json :=
  if t.entries.isEmpty then .ok (.object []) else .error (.notWritable "key must be a string")

def digest (t : IntTable) : Except PlanError String := return (← t.toJson).digest

def shortDigest (t : IntTable) : Except PlanError String := return (← t.toJson).fingerprint

def display (t : IntTable) : String :=
  "\x7b" ++ ", ".intercalate (t.entries.map fun entry =>
    Quoted.list (entry.1.map toString) ++ ": " ++ toString entry.2) ++ "\x7d"

def fingerprint (t : IntTable) : String :=
  match t.toJson with
  | .ok j => j.fingerprint
  | .error _ => SemanticQuery.shortDigest t.display

end IntTable

end SemanticQuery
