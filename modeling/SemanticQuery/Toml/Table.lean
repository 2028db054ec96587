/-!
Tables of a TOML document, and the rules by which headers and dotted keys may add to them.
-/

namespace SemanticQuery.Toml

/-- How a table came about, which decides what may be added to it later. -/
inductive Origin where
  /-- By a header of its own. -/
  | header
  /-- By the header of a table inside it. -/
  | implied
  /-- By a dotted key. -/
  | dotted
  /-- Written inline, and closed. -/
  | inline
  deriving DecidableEq

mutual

inductive Value where
  | string (text : String)
  | integer (value : Int)
  /-- A float, of which only the range matters. -/
  | float (finite : Bool)
  | bool (value : Bool)
  | date
  | array (items : List Value)
  | table (table : Table)
  /-- The tables of an array that is written by headers. -/
  | tables (rows : List Table)

structure Table where
  origin : Origin
  entries : List (String × Value)

end

mutual

/-- Whether every number in a value can be held: an integer in 128 bits, with a sign or without, and
a float if it does not overflow. -/
def Value.isHeld : Value → Bool
  | .integer n => -(Nat.pow 2 127 : Int) ≤ n && n < (Nat.pow 2 128 : Int)
  | .float finite => finite
  | .array items => Value.allHeld items
  | .table table => table.isHeld
  | .tables rows => Table.allHeld rows
  | _ => true

def Value.allHeld : List Value → Bool
  | [] => true
  | v :: vs => v.isHeld && Value.allHeld vs

def Table.isHeld : Table → Bool
  | ⟨_, entries⟩ => Table.entriesHeld entries

def Table.entriesHeld : List (String × Value) → Bool
  | [] => true
  | (_, v) :: entries => v.isHeld && Table.entriesHeld entries

def Table.allHeld : List Table → Bool
  | [] => true
  | t :: ts => t.isHeld && Table.allHeld ts

end

namespace Table

def empty (origin : Origin) : Table := ⟨origin, []⟩

def get? (t : Table) (key : String) : Option Value := t.entries.lookup key

/-- Puts a value in the place of the one with its key, or at the end. -/
def put (t : Table) (key : String) (value : Value) : Table :=
  { t with
    entries :=
      if t.entries.any (·.1 == key) then
        t.entries.map fun entry => if entry.1 == key then (key, value) else entry
      else t.entries ++ [(key, value)] }

def add? (t : Table) (key : String) (value : Value) : Option Table :=
  match t.get? key with
  | none => some (t.put key value)
  | some _ => none

/-- Whether a path may lead into a table. A dotted key does not enter a table with a header. -/
def enters (byDots : Bool) : Origin → Bool
  | .header => !byDots
  | .implied | .dotted => true
  | .inline => false

/-- Changes the table at the end of a path. Missing tables are made on the way, and an array of
tables is entered at its last row. -/
def modifyAt (byDots : Bool) (change : Table → Option Table) : List String → Table → Option Table
  | [], t => change t
  | key :: path, t =>
    match t.get? key with
    | none => do
      let made := empty (if byDots then .dotted else .implied)
      return t.put key (.table (← modifyAt byDots change path made))
    | some (.table inner) =>
      if enters byDots inner.origin then do
        return t.put key (.table (← modifyAt byDots change path inner))
      else none
    | some (.tables rows) => do
      let last ← rows.getLast?
      return t.put key (.tables (rows.dropLast ++ [← modifyAt byDots change path last]))
    | some _ => none

/-- Adds a value under a dotted key. All tables on the way have to be made by dotted keys. -/
def addDotted? (t : Table) (path : List String) (key : String) (value : Value) : Option Table :=
  modifyAt true
    (fun inner =>
      if (inner.origin == .dotted) == path.isEmpty then none else inner.add? key value)
    path t

/-- Opens the table of a header, which must not have been opened before. -/
def open? (root : Table) (path : List String) (key : String) : Option Table :=
  modifyAt false
    (fun t =>
      match t.get? key with
      | none => some (t.put key (.table (empty .header)))
      | some (.table inner) =>
        if inner.origin == .implied then
          some (t.put key (.table { inner with origin := .header }))
        else none
      | some _ => none)
    path root

def addRow? (root : Table) (path : List String) (key : String) : Option Table :=
  modifyAt false
    (fun t =>
      match t.get? key with
      | none => some (t.put key (.tables [empty .header]))
      | some (.tables rows) => some (t.put key (.tables (rows ++ [empty .header])))
      | some _ => none)
    path root

end Table

end SemanticQuery.Toml
