/-!
The closed vocabularies of the model: data types, purposes of concepts, modifiers of columns, and
the kinds of joins, windows, orderings, sources and operators in conditions.
-/

namespace SemanticQuery

/-- Lowers the case of a keyword. Apart from the ASCII capitals only the Kelvin sign has an ASCII
lowercase, so no other character can turn a text into a keyword. -/
def lowerKeyword (s : String) : String :=
  s.map fun c => if c == '\u212a' then 'k' else c.toLower

inductive DataType where
  | string
  | bool
  | map
  | list
  | number
  | float
  | integer
  | date
  | datetime
  | timestamp
  | array
  | datePart
  /-- The type of a reference that is not bound yet. -/
  | unknown
  deriving DecidableEq, Repr

namespace DataType

def all : List DataType :=
  [.string, .bool, .map, .list, .number, .float, .integer, .date, .datetime, .timestamp,
    .array, .datePart, .unknown]

def label : DataType → String
  | .string => "String"
  | .bool => "Bool"
  | .map => "Map"
  | .list => "List"
  | .number => "Number"
  | .float => "Float"
  | .integer => "Integer"
  | .date => "Date"
  | .datetime => "Datetime"
  | .timestamp => "Timestamp"
  | .array => "Array"
  | .datePart => "DatePart"
  | .unknown => "Unknown"

/-- The name of the type in messages and descriptions. -/
def name : DataType → String
  | .string => "string"
  | .bool => "bool"
  | .map => "map"
  | .list => "list"
  | .number => "number"
  | .float => "float"
  | .integer => "int"
  | .date => "date"
  | .datetime => "datetime"
  | .timestamp => "timestamp"
  | .array => "array"
  | .datePart => "date_part"
  | .unknown => "unknown"

/-- Reads a type name in any case; `integer` is a second name of `int`, and the unknown type has no
name that can be read. -/
def parse? (s : String) : Option DataType :=
  match lowerKeyword s with
  | "integer" => some .integer
  | "unknown" => none
  | keyword => all.find? (·.name == keyword)

def isTemporal : DataType → Bool
  | .date | .datetime | .timestamp => true
  | _ => false

end DataType

inductive Purpose where
  | key
  | property
  | metric
  | constant
  /-- Not decided yet: taken from the derivation, or left on a reference that is not bound. -/
  | auto
  deriving DecidableEq, Repr

namespace Purpose

def all : List Purpose :=
  [.key, .property, .metric, .constant, .auto]

def label : Purpose → String
  | .key => "Key"
  | .property => "Property"
  | .metric => "Metric"
  | .constant => "Constant"
  | .auto => "Auto"

/-- Reads a purpose in any case; `const` is short for `constant`. -/
def parse? (s : String) : Option Purpose :=
  match lowerKeyword s with
  | "key" => some .key
  | "property" => some .property
  | "metric" => some .metric
  | "const" | "constant" => some .constant
  | "auto" => some .auto
  | _ => none

end Purpose

inductive Derivation where
  | basic
  | window
  | filter
  | aggregate
  | constant
  | multiSelect
  deriving DecidableEq, Repr

namespace Derivation

def all : List Derivation :=
  [.basic, .window, .filter, .aggregate, .constant, .multiSelect]

def label : Derivation → String
  | .basic => "Basic"
  | .window => "Window"
  | .filter => "Filter"
  | .aggregate => "Aggregate"
  | .constant => "Constant"
  | .multiSelect => "MultiSelect"

end Derivation

inductive Modifier where
  /-- The column does not cover every row of the datasource's grain. -/
  | incomplete
  | optional
  | hidden
  deriving DecidableEq, Repr

namespace Modifier

def all : List Modifier :=
  [.incomplete, .optional, .hidden]

def label : Modifier → String
  | .incomplete => "Partial"
  | .optional => "Optional"
  | .hidden => "Hidden"

end Modifier

inductive ConceptSource where
  | manual
  | autoDerived
  deriving DecidableEq, Repr

namespace ConceptSource

def all : List ConceptSource :=
  [.manual, .autoDerived]

def label : ConceptSource → String
  | .manual => "Manual"
  | .autoDerived => "AutoDerived"

end ConceptSource

inductive JoinType where
  | inner
  | leftOuter
  | rightOuter
  | full
  | cross
  deriving DecidableEq, Repr

namespace JoinType

def all : List JoinType :=
  [.inner, .leftOuter, .rightOuter, .full, .cross]

def label : JoinType → String
  | .inner => "Inner"
  | .leftOuter => "LeftOuter"
  | .rightOuter => "RightOuter"
  | .full => "Full"
  | .cross => "Cross"

def name : JoinType → String
  | .inner => "inner"
  | .leftOuter => "left outer"
  | .rightOuter => "right outer"
  | .full => "full"
  | .cross => "cross"

def flipped : JoinType → JoinType
  | .leftOuter => .rightOuter
  | .rightOuter => .leftOuter
  | other => other

end JoinType

inductive Direction where
  | ascending
  | descending
  deriving DecidableEq, Repr

namespace Direction

def all : List Direction :=
  [.ascending, .descending]

def label : Direction → String
  | .ascending => "Ascending"
  | .descending => "Descending"

end Direction

/-- The relational shape of a resolved query. -/
inductive SourceType where
  | select
  | directSelect
  | group
  | window
  | filter
  | merge
  deriving DecidableEq, Repr

namespace SourceType

def all : List SourceType :=
  [.select, .directSelect, .group, .window, .filter, .merge]

def label : SourceType → String
  | .select => "Select"
  | .directSelect => "DirectSelect"
  | .group => "Group"
  | .window => "Window"
  | .filter => "Filter"
  | .merge => "Merge"

end SourceType

inductive WindowKind where
  | rowNumber
  | rank
  | lag
  | lead
  deriving DecidableEq, Repr

namespace WindowKind

def all : List WindowKind :=
  [.rowNumber, .rank, .lag, .lead]

def label : WindowKind → String
  | .rowNumber => "RowNumber"
  | .rank => "Rank"
  | .lag => "Lag"
  | .lead => "Lead"

end WindowKind

inductive Connective where
  | and
  | or
  deriving DecidableEq, Repr

namespace Connective

def all : List Connective :=
  [.and, .or]

def label : Connective → String
  | .and => "And"
  | .or => "Or"

end Connective

inductive Comparator where
  | lt
  | gt
  | eq
  | gte
  | lte
  | ne
  | isIn
  | like
  | is
  deriving DecidableEq, Repr

namespace Comparator

def all : List Comparator :=
  [.lt, .gt, .eq, .gte, .lte, .ne, .isIn, .like, .is]

def label : Comparator → String
  | .lt => "Lt"
  | .gt => "Gt"
  | .eq => "Eq"
  | .gte => "Gte"
  | .lte => "Lte"
  | .ne => "Ne"
  | .isIn => "In"
  | .like => "Like"
  | .is => "Is"

def parse? (s : String) : Option Comparator :=
  match lowerKeyword s with
  | "<" => some .lt
  | ">" => some .gt
  | "=" => some .eq
  | ">=" => some .gte
  | "<=" => some .lte
  | "!=" | "<>" => some .ne
  | "in" => some .isIn
  | "like" => some .like
  | "is" => some .is
  | _ => none

end Comparator

end SemanticQuery
