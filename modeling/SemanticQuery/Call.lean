import SemanticQuery.Concept.Basic
import SemanticQuery.Error

/-!
Calls checked against the signature of their operator: the number of arguments first, then the type
of each argument where the type is known.
-/

namespace SemanticQuery

/-- The type of an expression, where it is known without running it. -/
def Expr.datatype? : Expr → Option DataType
  | .concept c => some c.datatype
  | .literal l => l.datatype?
  | .call f => some f.datatype
  | .aggregate a => some a.call.datatype
  | .case (⟨_, result⟩ :: _) _ => result.datatype?
  | .case [] _ => none
  | .datatype t => some t
  | .list items => items.head?.bind (·.datatype?)

/-- The type that is held against a signature; case expressions, types and lists are not checked. -/
def Expr.checkedType? : Expr → Option DataType
  | .concept c => some c.datatype
  | .literal l => l.datatype?
  | .call f => some f.datatype
  | .aggregate a => some a.call.datatype
  | .case _ _ | .datatype _ | .list _ => none

def Expr.purpose? : Expr → Option Purpose
  | .concept c => some c.purpose
  | .call f => some f.purpose
  | .aggregate _ => some .metric
  | _ => none

def Literal.describe : Literal → String
  | .string s => "String(" ++ Quoted.string s ++ ")"
  | .integer n => "Integer(" ++ toString n ++ ")"
  | .float x => "Float(" ++ String.ofList (Quoted.float.render x) ++ ")"
  | .bool b => "Bool(" ++ (if b then "true" else "false") ++ ")"
  | .null => "Null"

def Expr.describe : Expr → String
  | .concept c => c.address
  | .literal l => l.describe
  | .call f => f.operator.name
  | .aggregate a => a.call.operator.name
  | .case _ _ => "case"
  | .datatype t => t.name
  | .list _ => "list"

namespace Call

/-- What is wrong with an argument at a position, if anything. Unknown types are not checked. -/
def misfit? (operator : Operator) (position : Nat) (argument : Expr) : Option PlanError :=
  match operator.signature.inputs.allowed position, argument.checkedType? with
  | none, _ | _, none | _, some .unknown => none
  | some allowed, some type =>
    if allowed.contains type then none
    else some (.invalidArgumentType operator.name argument.describe type.name)

def resultType (operator : Operator) (arguments : List Expr) : DataType :=
  match operator.signature.output with
  | .fixed type => type
  | .firstArgument => (arguments.head?.bind (·.datatype?)).getD .unknown
  | .castTarget => (arguments.getLast?.bind (·.datatype?)).getD .unknown

/-- Aggregates yield metrics; any other call is constant if all it reads is, a metric if it reads
one, and else a property. -/
def resultPurpose (operator : Operator) (arguments : List Expr) : Purpose :=
  if operator.isAggregate then .metric
  else if operator == .constant then .constant
  else
    let purposes := arguments.filterMap (·.purpose?)
    if purposes.all (· == .constant) then .constant
    else if purposes.contains .metric then .metric
    else .property

def of (operator : Operator) (arguments : List Expr) : Except PlanError Call :=
  let signature := operator.signature
  if !signature.accepts arguments.length then
    .error (.argumentCount operator.name signature.expected arguments.length)
  else
    let misfits := arguments.zipIdx.filterMap fun (argument, position) =>
      misfit? operator position argument
    match misfits.head? with
    | some error => .error error
    | none =>
      .ok ⟨operator, arguments, resultType operator arguments, resultPurpose operator arguments⟩

end Call

end SemanticQuery
