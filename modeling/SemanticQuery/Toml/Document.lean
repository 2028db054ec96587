import SemanticQuery.Toml.Text

/-!
TOML documents: keys, values and headers, read line by line into a table.
-/

namespace SemanticQuery.Toml

def skipBlanks (cs : List Char) : List Char := cs.dropWhile isBlank

/-- Whether a character may stand in a key without quotes. -/
def isBare (c : Char) : Bool := c.isAlphanum || c == '_' || c == '-'

def keyPart? (cs : List Char) : Reading String :=
  match cs.takeWhile isBare with
  | [] => quoted? cs
  | bare => some (String.ofList bare, cs.dropWhile isBare)

/-- A dotted key: the parts before the last, the last, and the rest of the text without blanks. -/
structure Key where
  path : List String
  last : String

/-- Reads a key of at most `parts` parts. -/
def keyWithin : (parts : Nat) → List Char → Reading Key
  | 0, _ => none
  | parts + 1, cs =>
    match keyPart? cs with
    | none => none
    | some (first, rest) =>
      match skipBlanks rest with
      | '.' :: rest =>
        (keyWithin parts (skipBlanks rest)).map fun (key, rest) =>
          (⟨first :: key.path, key.last⟩, rest)
      | rest => some (⟨[], first⟩, rest)

/-- The most parts of a key. -/
def maxParts : Nat := 80

def key? (cs : List Char) : Reading Key := keyWithin maxParts cs

def skipComment : List Char → List Char
  | '#' :: cs => cs.dropWhile isPlain
  | cs => cs

/-- The end of a line or of the text, after blanks and a comment. -/
def lineEnd? (cs : List Char) : Option (List Char) :=
  match skipComment (skipBlanks cs) with
  | [] => some []
  | '\n' :: rest => some rest
  | '\r' :: '\n' :: rest => some rest
  | _ => none

/-- Skips blanks, comments and line ends, at most `lines` of them. -/
def skipLines : (lines : Nat) → List Char → List Char
  | 0, cs => cs
  | lines + 1, cs =>
    match skipComment (skipBlanks cs) with
    | '\n' :: rest => skipLines lines rest
    | '\r' :: '\n' :: rest => skipLines lines rest
    | rest => rest

def skipSpace (cs : List Char) : List Char := skipLines (cs.length + 1) cs

def isScalarChar (c : Char) : Bool := isBare c || c == '+' || c == '.' || c == ':'

/-- A scalar without quotes. A single blank may stand between a day and a time. -/
def scalarText (cs : List Char) : List Char × List Char :=
  let first := cs.takeWhile isScalarChar
  match cs.dropWhile isScalarChar with
  | ' ' :: c :: rest =>
    if isDay first && c.isDigit then
      (first ++ ' ' :: (c :: rest).takeWhile isScalarChar, (c :: rest).dropWhile isScalarChar)
    else (first, ' ' :: c :: rest)
  | rest => (first, rest)

/-- The deepest nesting of arrays and inline tables. -/
def maxNesting : Nat := 80

mutual

/-- A value. The first number bounds the steps of the reader, the second the nesting that is
left. -/
def value? : (steps nesting : Nat) → List Char → Reading Value
  | 0, _, _ => none
  | steps + 1, nesting, cs =>
    match cs with
    | '[' :: rest =>
      match nesting with
      | 0 => none
      | nesting + 1 =>
        (items? steps nesting (skipSpace rest)).map fun (items, rest) => (.array items, rest)
    | '\x7b' :: rest =>
      match nesting with
      | 0 => none
      | nesting + 1 =>
        (entries? steps nesting (.empty .inline) (skipSpace rest)).map fun (table, rest) =>
          (.table table, rest)
    | '"' :: _ => (string? cs).map fun (text, rest) => (.string text, rest)
    | '\'' :: _ => (string? cs).map fun (text, rest) => (.string text, rest)
    | _ =>
      let (text, rest) := scalarText cs
      (scalar? text).map fun value => (value, rest)

/-- The items of an array up to its bracket. A comma may stand after the last. -/
def items? : (steps nesting : Nat) → List Char → Reading (List Value)
  | 0, _, _ => none
  | _ + 1, _, ']' :: rest => some ([], rest)
  | steps + 1, nesting, cs =>
    match value? steps nesting cs with
    | none => none
    | some (item, rest) =>
      match skipSpace rest with
      | ']' :: rest => some ([item], rest)
      | ',' :: rest =>
        (items? steps nesting (skipSpace rest)).map fun (items, rest) => (item :: items, rest)
      | _ => none

/-- The entries of an inline table up to its brace. Lines may end anywhere but within a key, and a
comma may stand after the last entry. -/
def entries? : (steps nesting : Nat) → Table → List Char → Reading Table
  | 0, _, _, _ => none
  | _ + 1, _, table, '\x7d' :: rest => some (table, rest)
  | steps + 1, nesting, table, cs =>
    match (key? cs).map fun (key, rest) => (key, skipSpace rest) with
    | some (key, '=' :: rest) =>
      match value? steps nesting (skipSpace rest) with
      | none => none
      | some (value, rest) =>
        match table.addDotted? key.path key.last value with
        | none => none
        | some table =>
          match skipSpace rest with
          | '\x7d' :: rest => some (table, rest)
          | ',' :: rest => entries? steps nesting table (skipSpace rest)
          | _ => none
    | _ => none

end

/-- A document under construction: its root, and the path of the table that lines add to. -/
structure Draft where
  root : Table := .empty .header
  current : List String := []

namespace Draft

def addEntry (d : Draft) (cs : List Char) : Option (Draft × List Char) := do
  match ← key? cs with
  | (key, '=' :: rest) =>
    let (value, rest) ← value? (3 * rest.length + 1) maxNesting (skipBlanks rest)
    let root ← d.root.modifyAt false (·.addDotted? key.path key.last value) d.current
    return ({ d with root }, ← lineEnd? rest)
  | _ => none

def addHeader (d : Draft) (cs : List Char) : Option (Draft × List Char) := do
  match ← key? (skipBlanks cs) with
  | (key, ']' :: rest) =>
    let root ← d.root.open? key.path key.last
    return (⟨root, key.path ++ [key.last]⟩, ← lineEnd? rest)
  | _ => none

def addRowHeader (d : Draft) (cs : List Char) : Option (Draft × List Char) := do
  match ← key? (skipBlanks cs) with
  | (key, ']' :: ']' :: rest) =>
    let root ← d.root.addRow? key.path key.last
    return (⟨root, key.path ++ [key.last]⟩, ← lineEnd? rest)
  | _ => none

def readLines : (lines : Nat) → Draft → List Char → Option Draft
  | 0, _, _ => none
  | lines + 1, d, cs =>
    match skipBlanks cs with
    | [] => some d
    | '[' :: '[' :: rest => do
      let (d, rest) ← d.addRowHeader rest
      readLines lines d rest
    | '[' :: rest => do
      let (d, rest) ← d.addHeader rest
      readLines lines d rest
    | rest =>
      match lineEnd? rest with
      | some rest => readLines lines d rest
      | none => do
        let (d, rest) ← d.addEntry rest
        readLines lines d rest

end Draft

/-- The root table of a document. A mark of the byte order at its start is passed over. -/
def read (text : String) : Option Table :=
  let cs :=
    match text.toList with
    | '\ufeff' :: cs => cs
    | cs => cs
  (Draft.readLines (cs.length + 1) {} cs).map (·.root)

end SemanticQuery.Toml
