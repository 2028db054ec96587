import SemanticQuery.Query.Basic

/-!
Joins between the parents of a plan node, by their position: how they follow from the concepts that
parents share, the order in which each attaches one more parent, and whether they link all parents.
-/

namespace SemanticQuery

/-- A join between two parents, by position. -/
structure ParentJoin where
  left : Nat
  right : Nat
  concepts : List Concept
  joinType : JoinType
  /-- Whether keys that a side lacks are dropped. -/
  mutualOnly : Bool := false

namespace ParentJoin

def flip (j : ParentJoin) : ParentJoin :=
  { j with left := j.right, right := j.left, joinType := j.joinType.flipped }

def source (sources : List Source) (index : Nat) : Except PlanError Source :=
  match sources[index]? with
  | some s => .ok s
  | none => .error (.disconnectedJoins (Source.names sources) [toString index])

def toSourceJoin (sources : List Source) (j : ParentJoin) : Except PlanError SourceJoin := do
  let left ← source sources j.left
  let right ← source sources j.right
  SourceJoin.of left right j.concepts j.joinType j.mutualOnly

def isKeyless (q : Query) : Bool :=
  q.grain.isAbstract || q.outputs.all (·.purpose == .constant)

def isJoinKey (c : Concept) : Bool :=
  match c.purpose with
  | .metric | .constant => false
  | _ => true

/-- The join between two parents. A keyless side makes it a cross join, and a shared key that is
partial on either side a full join; without a shared key there is none. -/
def between? (left right : Nat × Query) : Option ParentJoin :=
  if isKeyless left.2 || isKeyless right.2 then some ⟨left.1, right.1, [], .cross, false⟩
  else
    let keys := left.2.outputs.filter fun c => isJoinKey c && right.2.provides c.address
    if keys.isEmpty then none
    else
      let isPartial := keys.any fun c =>
        left.2.isPartialFor c.address || right.2.isPartialFor c.address
      some ⟨left.1, right.1, keys, if isPartial then .full else .leftOuter, false⟩

def pairs : List α → List (α × α)
  | [] => []
  | a :: rest => rest.map (fun b => (a, b)) ++ pairs rest

/-- The joins between all parents, those with fewer partial outputs on the left. -/
def derive (parents : List Query) : List ParentJoin :=
  let placed := parents.zipIdx.map fun (q, index) => (index, q)
  let order := sortBy (fun a b => a.2.partials.length ≤ b.2.partials.length) placed
  (pairs order).filterMap fun (left, right) => between? left right

/-- The parents that are joined so far, in increasing order, the joins that join them, and the joins
that have to wait. -/
structure Attached where
  parents : List Nat := []
  joins : List ParentJoin := []
  waiting : List ParentJoin := []

def insertIndex (index : Nat) : List Nat → List Nat
  | [] => [index]
  | first :: rest =>
    if index < first then index :: first :: rest
    else if index = first then first :: rest
    else first :: insertIndex index rest

/-- Takes up one join. The first join is taken as it is; a later one attaches its new side, on the
right, or is dropped if both sides are attached, or waits if neither is. -/
def Attached.take (a : Attached) (j : ParentJoin) : Attached :=
  if a.parents.isEmpty then
    { a with parents := insertIndex j.left (insertIndex j.right []), joins := a.joins ++ [j] }
  else
    match a.parents.contains j.left, a.parents.contains j.right with
    | true, true => a
    | true, false => { a with parents := insertIndex j.right a.parents, joins := a.joins ++ [j] }
    | false, true =>
      { a with parents := insertIndex j.left a.parents, joins := a.joins ++ [j.flip] }
    | false, false => { a with waiting := a.waiting ++ [j] }

def label (names : List String) (index : Nat) : String := names[index]?.getD (toString index)

/-- Takes up joins in passes until none waits. A pass in which all joins wait is an error. -/
def orderFrom (names : List String) :
    (passes : Nat) → Attached → List ParentJoin → Except PlanError (List ParentJoin)
  | _, a, [] => .ok a.joins
  | 0, a, _ => .ok a.joins
  | passes + 1, a, joins =>
    let next := joins.foldl Attached.take { a with waiting := [] }
    if next.waiting.length == joins.length then
      .error (.disconnectedJoins (next.parents.map (label names))
        (next.waiting.flatMap fun j => [label names j.left, label names j.right]))
    else orderFrom names passes next next.waiting

/-- The joins in an order in which each after the first attaches one parent to those before. The
names label parents in the error. -/
def order (joins : List ParentJoin) (names : List String) : Except PlanError (List ParentJoin) :=
  orderFrom names joins.length {} joins

def reach (joins : List ParentJoin) (reached : List Nat) : List Nat :=
  joins.foldl
    (fun reached j =>
      if reached.contains j.left || reached.contains j.right then
        insertIndex j.left (insertIndex j.right reached)
      else reached)
    reached

/-- Follows the joins in passes until all `count` parents are reached or a pass reaches no more. -/
def connectedFrom (joins : List ParentJoin) (count : Nat) : (passes : Nat) → List Nat → Bool
  | 0, _ => false
  | passes + 1, reached =>
    let next := reach joins reached
    if next.length == count then true
    else if next.length == reached.length then false
    else connectedFrom joins count passes next

def isConnected (joins : List ParentJoin) (count : Nat) : Bool :=
  count < 2 || connectedFrom joins count (2 * joins.length + 1) [0]

end ParentJoin

end SemanticQuery
