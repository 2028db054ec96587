import SemanticQuery.Toml.Document

/-!
The settings of a planner, and how they are read from configuration files.
-/

namespace SemanticQuery

structure Settings where
  /-- Whether sources that cover a concept only partially are accepted from the start. -/
  acceptPartial : Bool := false
  /-- Whether a plan may lack optional concepts. -/
  acceptPartialOptional : Bool := true
  maxCteNameLength : Nat := 63
  /-- Whether calendar parts are added to a catalog for every temporal concept. -/
  deriveDateParts : Bool := true

inductive SettingsError where
  | fileNotFound
  | notReadable
  /-- The longest allowed name is too short to hold a fingerprint. -/
  | nameLength (length : Nat)
  deriving DecidableEq

namespace Settings

def leastNameLength : Nat := 16

end Settings

def SettingsError.label : SettingsError → String
  | fileNotFound => "FileNotFound"
  | notReadable => "ParseError"
  | nameLength _ => "InvalidConfig"

def SettingsError.message : SettingsError → String
  | fileNotFound => "Config file not found"
  | notReadable => "Failed to parse config file"
  | nameLength length =>
    "Invalid configuration: naming.max_cte_name_length must be at least " ++
      toString Settings.leastNameLength ++ ", got " ++ toString length

namespace Settings

open Toml (Value)

def bool? : Value → Option Bool
  | .bool b => some b
  | _ => none

/-- A length is an integer that fits 64 bits without a sign. -/
def length? : Value → Option Nat
  | .integer n => if 0 ≤ n ∧ n < (Nat.pow 2 64 : Int) then some n.toNat else none
  | _ => none

/-- The value of a group of settings at a place: by name in a table, by position in an array. A date
is a group in which no setting is named. -/
def member? (group : Value) (position : Nat) (name : String) : Option (Option Value) :=
  match group with
  | .table table => some (table.get? name)
  | .array items => some items[position]?
  | .date => some none
  | _ => none

def setting (read : Value → Option α) (fallback : α) (group : Value) (position : Nat)
    (name : String) : Option α :=
  match member? group position name with
  | none => none
  | some none => some fallback
  | some (some value) => read value

/-- Whether what a group holds by other names can be held. -/
def othersHeld (names : List String) : Value → Bool
  | .table table => table.entries.all fun entry => names.contains entry.1 || entry.2.isHeld
  | _ => true

def namingOf (value : Value) : Option Nat :=
  if othersHeld ["max_cte_name_length"] value then
    setting length? ({} : Settings).maxCteNameLength value 0 "max_cte_name_length"
  else none

def catalogOf (value : Value) : Option Bool :=
  if othersHeld ["auto_derive_date_parts"] value then
    setting bool? ({} : Settings).deriveDateParts value 0 "auto_derive_date_parts"
  else none

def names : List String := ["accept_partial", "accept_partial_optional", "naming", "environment"]

/-- The settings in a document. Names that are not known are passed over. -/
def ofTable? (root : Toml.Table) : Option Settings := do
  let initial : Settings := {}
  let group : Value := .table root
  if othersHeld names group then
    return {
      acceptPartial := ← setting bool? initial.acceptPartial group 0 "accept_partial"
      acceptPartialOptional :=
        ← setting bool? initial.acceptPartialOptional group 1 "accept_partial_optional"
      maxCteNameLength := ← setting namingOf initial.maxCteNameLength group 2 "naming"
      deriveDateParts := ← setting catalogOf initial.deriveDateParts group 3 "environment" }
  else none

def validate (s : Settings) : Except SettingsError Settings :=
  if s.maxCteNameLength < leastNameLength then .error (.nameLength s.maxCteNameLength) else .ok s

def ofText (text : String) : Except SettingsError Settings :=
  match (Toml.read text).bind ofTable? with
  | none => .error .notReadable
  | some settings => settings.validate

end Settings

structure SettingsFiles where
  /-- The file that was named explicitly, if one was; `none` within if there is no such file. -/
  named : Option (Option String) := none
  /-- The file of the working directory. -/
  project : Option String := none
  /-- The file of the user. -/
  user : Option String := none

/-- The settings of the first file that there is, or the initial ones. A named file has to exist. -/
def SettingsFiles.load (files : SettingsFiles) : Except SettingsError Settings :=
  match files.named, files.project, files.user with
  | some none, _, _ => .error .fileNotFound
  | some (some text), _, _ => Settings.ofText text
  | none, some text, _ => Settings.ofText text
  | none, none, some text => Settings.ofText text
  | none, none, none => .ok {}

end SemanticQuery
