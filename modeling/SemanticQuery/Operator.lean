import SemanticQuery.Vocabulary

/-!
The operators that a call can apply, and the signature of each: how many arguments it takes, which
types it accepts at which position, and the type of its result.
-/

namespace SemanticQuery

inductive Operator where
  | cast
  | concat
  | coalesce
  | constant
  | case
  | add
  | subtract
  | multiply
  | divide
  | round
  | count
  | countDistinct
  | sum
  | max
  | min
  | avg
  | length
  | like
  | ilike
  | lower
  | upper
  | date
  | datetime
  | timestamp
  | second
  | minute
  | hour
  | day
  | dayOfWeek
  | week
  | month
  | quarter
  | year
  deriving DecidableEq, Repr

namespace Operator

def all : List Operator :=
  [.cast, .concat, .coalesce, .constant, .case, .add, .subtract, .multiply, .divide, .round,
    .count, .countDistinct, .sum, .max, .min, .avg, .length, .like, .ilike, .lower, .upper,
    .date, .datetime, .timestamp, .second, .minute, .hour, .day, .dayOfWeek, .week, .month,
    .quarter, .year]

def label : Operator → String
  | .cast => "Cast"
  | .concat => "Concat"
  | .coalesce => "Coalesce"
  | .constant => "Constant"
  | .case => "Case"
  | .add => "Add"
  | .subtract => "Subtract"
  | .multiply => "Multiply"
  | .divide => "Divide"
  | .round => "Round"
  | .count => "Count"
  | .countDistinct => "CountDistinct"
  | .sum => "Sum"
  | .max => "Max"
  | .min => "Min"
  | .avg => "Avg"
  | .length => "Length"
  | .like => "Like"
  | .ilike => "Ilike"
  | .lower => "Lower"
  | .upper => "Upper"
  | .date => "Date"
  | .datetime => "Datetime"
  | .timestamp => "Timestamp"
  | .second => "Second"
  | .minute => "Minute"
  | .hour => "Hour"
  | .day => "Day"
  | .dayOfWeek => "DayOfWeek"
  | .week => "Week"
  | .month => "Month"
  | .quarter => "Quarter"
  | .year => "Year"

/-- The name of the operator in messages and in names of derived concepts. -/
def name : Operator → String
  | .cast => "cast"
  | .concat => "concat"
  | .coalesce => "coalesce"
  | .constant => "constant"
  | .case => "case"
  | .add => "add"
  | .subtract => "subtract"
  | .multiply => "multiply"
  | .divide => "divide"
  | .round => "round"
  | .count => "count"
  | .countDistinct => "count_distinct"
  | .sum => "sum"
  | .max => "max"
  | .min => "min"
  | .avg => "avg"
  | .length => "len"
  | .like => "like"
  | .ilike => "ilike"
  | .lower => "lower"
  | .upper => "upper"
  | .date => "date"
  | .datetime => "datetime"
  | .timestamp => "timestamp"
  | .second => "second"
  | .minute => "minute"
  | .hour => "hour"
  | .day => "day"
  | .dayOfWeek => "day_of_week"
  | .week => "week"
  | .month => "month"
  | .quarter => "quarter"
  | .year => "year"

def isAggregate : Operator → Bool
  | .count | .countDistinct | .sum | .max | .min | .avg => true
  | _ => false

end Operator

inductive InputTypes where
  | any
  /-- Every argument has one of these types. -/
  | uniform (types : List DataType)
  /-- One list for each position; later positions are not checked. -/
  | positional (types : List (List DataType))

def InputTypes.allowed : InputTypes → Nat → Option (List DataType)
  | .any, _ => none
  | .uniform types, _ => some types
  | .positional types, position => types[position]?

inductive OutputType where
  | fixed (type : DataType)
  | firstArgument
  /-- The type named by the last argument. -/
  | castTarget

structure Signature where
  least : Nat
  /-- Absent when any number of arguments may follow. -/
  most : Option Nat
  inputs : InputTypes
  output : OutputType

namespace Signature

def accepts (s : Signature) (count : Nat) : Bool :=
  s.least ≤ count && s.most.all (count ≤ ·)

def expected (s : Signature) : String :=
  match s.most with
  | none => "at least " ++ toString s.least
  | some most =>
    if s.least == most then toString most
    else toString s.least ++ " to " ++ toString most

end Signature

namespace Operator

def numeric : List DataType := [.integer, .float, .number]

def dateInput : List DataType := [.date, .timestamp, .datetime, .string]

def timestampInput : List DataType := [.timestamp, .string]

def timePartInput : List DataType := [.timestamp, .datetime]

def datePartInput : List DataType := [.date, .timestamp, .datetime]

def sized : List DataType := [.string, .array, .map, .list]

def castable : List DataType := [.integer, .string, .float, .number]

def signature : Operator → Signature
  | .cast => ⟨2, some 2, .positional [castable], .castTarget⟩
  | .concat => ⟨1, none, .uniform [.string], .fixed .string⟩
  | .coalesce => ⟨1, none, .any, .firstArgument⟩
  | .constant | .case => ⟨1, some 1, .any, .firstArgument⟩
  | .add | .subtract | .multiply | .divide => ⟨2, some 2, .any, .firstArgument⟩
  | .round => ⟨1, some 2, .positional [numeric, [.integer]], .firstArgument⟩
  | .count | .countDistinct => ⟨1, some 1, .any, .fixed .integer⟩
  | .sum | .avg => ⟨1, some 1, .uniform numeric, .firstArgument⟩
  | .max | .min => ⟨1, some 1, .any, .firstArgument⟩
  | .length => ⟨1, some 1, .uniform sized, .fixed .integer⟩
  | .like | .ilike => ⟨2, some 2, .uniform [.string], .fixed .bool⟩
  | .lower | .upper => ⟨1, some 1, .uniform [.string], .fixed .string⟩
  | .date => ⟨1, some 1, .uniform dateInput, .fixed .date⟩
  | .datetime => ⟨1, some 1, .uniform dateInput, .fixed .datetime⟩
  | .timestamp => ⟨1, some 1, .uniform timestampInput, .fixed .timestamp⟩
  | .second | .minute | .hour => ⟨1, some 1, .uniform timePartInput, .fixed .integer⟩
  | .day | .dayOfWeek | .week | .month | .quarter | .year =>
    ⟨1, some 1, .uniform datePartInput, .fixed .integer⟩

end Operator

end SemanticQuery
