import SemanticQuery.Plan.Node

/-!
The memory of a planning run: the results of finished searches, the searches in progress, and those
among them whose outcome hangs on a search that was cut short.
-/

namespace SemanticQuery

structure History where
  results : NameMap (Option Node) := ∅
  /-- The keys of the searches in progress. -/
  inFlight : List String := []
  /-- The keys whose search met one that was in progress. -/
  incomplete : List String := []

namespace History

def keyPart (c : Concept) : String := c.address ++ "@" ++ c.grain.identifier

/-- The key of a request: its concepts with their grains in increasing order, and whether partial
sources are accepted. -/
def key (request : List Concept) (acceptPartial : Bool) : String :=
  "-".intercalate (Names.ofList (request.map keyPart)) ++ "-" ++
    (if acceptPartial then "true" else "false")

def get? (h : History) (key : String) : Option (Option Node) := h.results.get? key

def record (h : History) (key : String) (result : Option Node) : History :=
  { h with results := h.results.insert key result }

def isInFlight (h : History) (key : String) : Bool := h.inFlight.contains key

def start (h : History) (key : String) : History :=
  { h with inFlight := Names.insert key h.inFlight }

/-- Every search in progress may turn out otherwise once the one that was met has finished. -/
def shortCircuit (h : History) : History :=
  { h with incomplete := h.inFlight.foldl (fun keys key => Names.insert key keys) h.incomplete }

def isIncomplete (h : History) (key : String) : Bool := h.incomplete.contains key

/-- Takes a key out of flight and forgets that it was incomplete. -/
def finish (h : History) (key : String) : History :=
  { h with
    inFlight := h.inFlight.filter (· != key)
    incomplete := h.incomplete.filter (· != key) }

def size (h : History) : Nat := h.results.size

end History

end SemanticQuery
