import Mathlib.Data.List.Chain
import Mathlib.Data.List.Lex
import Mathlib.Data.List.Perm.Subperm
import Mathlib.Logic.Relation
import SemanticQuery.Proofs.Edges

/-!
The search for shortest paths. Paths enter the queue in the order of their lengths and, at one
length, in the order of their names, and the first path that reaches a vertex is the least of all
walks to it. So the search finds the least of the shortest paths, whatever order the vertices and
edges of the graph were added in.
-/

namespace SemanticQuery

/-- Whether names lead from one to another along links. -/
structure IsPath (links : String → String → Prop) (source target : String) (path : List String) :
    Prop where
  first : path.head? = some source
  last : path.getLast? = some target
  steps : path.IsChain links

/-- A path that is no longer than any other, and of those of its length the first in lexicographic
order. -/
structure IsLeastPath (links : String → String → Prop) (source target : String)
    (path : List String) : Prop where
  isPath : IsPath links source target path
  shortest : ∀ other, IsPath links source target other → path.length ≤ other.length
  least : ∀ other, IsPath links source target other → other.length = path.length →
    path = other ∨ List.Lex (· < ·) path other

theorem IsLeastPath.unique {links : String → String → Prop} {source target : String}
    {path other : List String} (least : IsLeastPath links source target path)
    (otherLeast : IsLeastPath links source target other) : path = other := by
  have same : other.length = path.length :=
    Nat.le_antisymm (otherLeast.shortest path least.isPath) (least.shortest other otherLeast.isPath)
  rcases least.least other otherLeast.isPath same with equal | before
  · exact equal
  · rcases otherLeast.least path least.isPath same.symm with equal | after
    · exact equal.symm
    · exact absurd after (List.lex_asymm (fun lt gt => String.lt_irrefl _ (String.lt_trans lt gt))
        before)

/-- What an answer for two vertices has to be: nothing if the second cannot be reached, and else the
least path. -/
structure IsAnswer (links : String → String → Prop) (source target : String)
    (answer : Option (List String)) : Prop where
  unreachable : answer = none ↔ ¬ Relation.ReflTransGen links source target
  least : ∀ path, answer = some path → IsLeastPath links source target path

theorem IsAnswer.unique {links : String → String → Prop} {source target : String}
    {answer other : Option (List String)} (right : IsAnswer links source target answer)
    (otherRight : IsAnswer links source target other) : answer = other := by
  cases answer with
  | none => exact (otherRight.unreachable.mpr (right.unreachable.mp rfl)).symm
  | some path =>
    cases other with
    | none => exact right.unreachable.mpr (otherRight.unreachable.mp rfl)
    | some otherPath =>
      rw [(right.least path rfl).unique (otherRight.least otherPath rfl)]

/-- The order in which paths, written from their end to their start, enter the queue. -/
def Sooner (path other : List String) : Prop :=
  path.length < other.length ∨
    path.length = other.length ∧ List.Lex (· < ·) path.reverse other.reverse

namespace Sooner

variable {path other later : List String} {a b : String}

theorem trans (first : Sooner path other) (second : Sooner other later) : Sooner path later := by
  rcases first with shorter | ⟨same, before⟩
  · apply Or.inl
    rcases second with shorterStill | ⟨same, _⟩ <;> omega
  · rcases second with shorter | ⟨alsoSame, after⟩
    · exact .inl (by omega)
    · exact .inr ⟨by omega, List.lex_trans String.lt_trans before after⟩

theorem length_le (sooner : Sooner path other) : path.length ≤ other.length := by
  rcases sooner with shorter | ⟨same, _⟩ <;> omega

theorem cons_self (a : String) (path : List String) : Sooner path (a :: path) := .inl (by simp)

theorem cons_of_lt (lt : a < b) (path : List String) : Sooner (a :: path) (b :: path) := by
  refine .inr ⟨by simp, ?_⟩
  simp only [List.reverse_cons]
  exact List.Lex.append_left _ (.rel lt) _

/-- Where texts of one length differ, what follows does not matter. -/
theorem lex_append {first second : List String} (lex : List.Lex (· < ·) first second)
    (same : first.length = second.length) (rest other : List String) :
    List.Lex (· < ·) (first ++ rest) (second ++ other) := by
  induction lex with
  | nil => simp at same
  | rel lt => exact .rel lt
  | cons _ ih => exact .cons (ih (by simpa using same))

theorem cons (sooner : Sooner path other) (a b : String) : Sooner (a :: path) (b :: other) := by
  rcases sooner with shorter | ⟨same, before⟩
  · exact .inl (by simpa using shorter)
  · refine .inr ⟨by simpa using same, ?_⟩
    simp only [List.reverse_cons]
    exact lex_append before (by simpa using same) _ _

end Sooner

namespace Graph

/-- One addition to a graph. -/
inductive Addition where
  | vertex (v : Vertex)
  | edge (source target : Vertex) (kind : EdgeKind)

/-- The names of the vertices that are there after an addition. -/
def Addition.names : Addition → List String
  | .vertex v => [v.name]
  | .edge source target _ => [source.name, target.name]

/-- Whether an addition is that of an edge between vertices of two names. -/
def Addition.Links : Addition → String → String → Prop
  | .vertex _, _, _ => False
  | .edge source target _, a, b => a = source.name ∧ b = target.name

def add (g : Graph) : Addition → Graph
  | .vertex v => g.addVertex v
  | .edge source target kind => g.addEdge source target kind

/-- The graph that additions make of the empty one. -/
def ofAdditions (additions : List Addition) : Graph := additions.foldl add ∅

/-- Whether an edge was added between vertices of two names. -/
def Linking (additions : List Addition) (a b : String) : Prop :=
  ∃ addition ∈ additions, addition.Links a b

section Additions

variable {additions : List Addition} {name a b : String}

theorem contains_add (g : Graph) (addition : Addition) :
    (g.add addition).contains name = true ↔ name ∈ addition.names ∨ g.contains name = true := by
  cases addition with
  | vertex v => simp [add, Addition.names, contains_addVertex]
  | edge source target kind => simp [add, Addition.names, contains_addEdge, or_assoc]

theorem mem_successors_add (g : Graph) (addition : Addition) :
    b ∈ (g.add addition).successors a ↔ addition.Links a b ∨ b ∈ g.successors a := by
  cases addition with
  | vertex v => simp [add, Addition.Links]
  | edge source target kind => simp [add, Addition.Links, mem_successors_addEdge]

theorem contains_ofAdditions :
    (ofAdditions additions).contains name = true ↔
      ∃ addition ∈ additions, name ∈ addition.names := by
  have none : (∅ : Graph).contains name = false := rfl
  rw [ofAdditions, foldl_iff (P := (·.contains name = true)) contains_add]
  simp [none]

/-- The successors of a vertex are the targets of the edges that were added from it. -/
theorem mem_successors_ofAdditions :
    b ∈ (ofAdditions additions).successors a ↔ Linking additions a b := by
  rw [ofAdditions, foldl_iff (P := (b ∈ ·.successors a)) mem_successors_add]
  simp [Linking, not_mem_successors_empty]

theorem contains_successor (linked : b ∈ (ofAdditions additions).successors a) :
    (ofAdditions additions).contains b = true := by
  obtain ⟨addition, member, edge⟩ := mem_successors_ofAdditions.mp linked
  apply contains_ofAdditions.mpr
  refine ⟨addition, member, ?_⟩
  cases addition with
  | vertex v => exact absurd edge id
  | edge source target kind => simp [Addition.names, edge.2]

end Additions

variable {g : Graph} {source target : String}

section Refill

variable {queue : List (List String)} {seen : List String} {current next : String}
  {path other : List String}

/-- The successors of a vertex that were not seen yet. -/
def unseen (g : Graph) (seen : List String) (current : String) : List String :=
  (g.successors current).filter fun name => !seen.contains name

/-- A queue with the extensions of a path at its end. -/
def refill (g : Graph) (queue : List (List String)) (seen : List String) (current : String)
    (path : List String) : List (List String) :=
  queue ++ (g.unseen seen current).map fun name => name :: current :: path

theorem mem_unseen : next ∈ g.unseen seen current ↔ next ∈ g.successors current ∧ next ∉ seen := by
  simp [unseen]

theorem pairwise_unseen (g : Graph) (seen : List String) (current : String) :
    (g.unseen seen current).Pairwise (· < ·) :=
  (pairwise_successors g current).filter _

theorem mem_refill :
    other ∈ g.refill queue seen current path ↔
      other ∈ queue ∨ ∃ next ∈ g.unseen seen current, other = next :: current :: path := by
  simp [refill, eq_comm]

/-- A path that does not end at the target makes room for its extensions. -/
theorem searchFrom_refill {fuel : Nat} (passed : current ≠ target) :
    g.searchFrom target (fuel + 1) ((current :: path) :: queue) seen =
      g.searchFrom target fuel (g.refill queue seen current path)
        (g.unseen seen current ++ seen) := by
  simp [searchFrom, passed, refill, unseen]

end Refill

/-- The walks from a vertex, written from their end to their start. -/
inductive Walk (g : Graph) (source : String) : List String → Prop
  | start : Walk g source [source]
  | step {current next path} : Walk g source (current :: path) → next ∈ g.successors current →
      Walk g source (next :: current :: path)

/-- What a breadth-first search finds is a walk to its target. -/
theorem walk_of_searchFrom {fuel : Nat} {queue : List (List String)}
    {seen found : List String} (walks : ∀ path ∈ queue, g.Walk source path)
    (ends : g.searchFrom target fuel queue seen = some found) :
    ∃ path, found = (target :: path).reverse ∧ g.Walk source (target :: path) := by
  induction fuel, queue, seen using searchFrom.induct g target with
  | case1 => simp [searchFrom] at ends
  | case2 => simp [searchFrom] at ends
  | case3 fuel queue seen ih =>
    exact ih (fun path member => walks path (List.mem_cons_of_mem _ member))
      (by simpa [searchFrom] using ends)
  | case4 fuel current path queue seen reached =>
    rw [searchFrom, if_pos reached] at ends
    rw [eq_of_beq reached] at ends walks
    exact ⟨path, (Option.some.inj ends).symm, walks _ List.mem_cons_self⟩
  | case5 fuel current path queue seen notReached fresh ih =>
    have passed : current ≠ target := by simpa using notReached
    rw [searchFrom_refill passed] at ends
    refine ih ?_ ends
    intro longer member
    rcases mem_refill.mp member with queued | ⟨next, new, rfl⟩
    · exact walks longer (List.mem_cons_of_mem _ queued)
    · exact .step (walks _ List.mem_cons_self) (mem_unseen.mp new).1

/-- A walk that leaves its source passes one of the successors of the source. -/
theorem Walk.exists_successor {path : List String}
    (walk : g.Walk source (target :: path)) (left : target ≠ source) :
    ∃ next ∈ g.successors source, next ∈ target :: path := by
  generalize whole : target :: path = steps at walk
  induction walk generalizing target path with
  | start =>
    cases whole
    exact absurd rfl left
  | @step current next path walk edge ih =>
    by_cases first : current = source
    · exact ⟨next, first ▸ edge, List.mem_cons_self⟩
    · obtain ⟨passed, successor, member⟩ := ih first rfl
      exact ⟨passed, successor, List.mem_cons_of_mem _ member⟩

section Walks

variable {path : List String}

/-- A walk, read from its start to its end, is a path along edges. -/
theorem isPath_reverse_iff :
    IsPath (fun a b => b ∈ g.successors a) source target path.reverse ↔
      ∃ rest, path = target :: rest ∧ g.Walk source path := by
  constructor
  · rintro ⟨first, last, steps⟩
    simp only [List.head?_reverse, List.getLast?_reverse, List.isChain_reverse] at first last steps
    induction path generalizing target with
    | nil => simp at last
    | cons name rest ih =>
      obtain rfl : name = target := by simpa using last
      refine ⟨rest, rfl, ?_⟩
      cases rest with
      | nil =>
        obtain rfl : name = source := by simpa using first
        exact .start
      | cons before rest =>
        obtain ⟨edge, steps⟩ := List.isChain_cons_cons.mp steps
        have last : (before :: rest).head? = some before := rfl
        obtain ⟨_, _, walk⟩ := ih (by simpa using first) last steps
        exact .step walk edge
  · rintro ⟨rest, rfl, walk⟩
    generalize whole : target :: rest = steps at walk
    suffices ends : steps.getLast? = some source ∧ steps.IsChain fun a b => a ∈ g.successors b by
      refine ⟨?_, ?_, ?_⟩
      · simp [ends.1]
      · simp [← whole]
      · simpa [List.isChain_reverse] using ends.2
    clear whole
    induction walk with
    | start => simp
    | step _ edge ih => exact ⟨by simpa using ih.1, List.isChain_cons_cons.mpr ⟨edge, ih.2⟩⟩

theorem exists_walk_iff :
    (∃ rest, g.Walk source (target :: rest)) ↔
      Relation.ReflTransGen (fun a b => b ∈ g.successors a) source target := by
  constructor
  · rintro ⟨rest, walk⟩
    generalize whole : target :: rest = steps at walk
    induction walk generalizing target rest with
    | start =>
      cases whole
      exact .refl
    | step _ edge ih =>
      cases whole
      exact (ih _ rfl).tail edge
  · intro reached
    induction reached with
    | refl => exact ⟨[], .start⟩
    | tail _ edge ih =>
      obtain ⟨rest, walk⟩ := ih
      exact ⟨_, .step walk edge⟩

end Walks

/-- A walk that enters the queue before all other walks to its end. -/
structure Foremost (g : Graph) (source current : String) (path : List String) : Prop where
  walk : g.Walk source (current :: path)
  first : ∀ other, g.Walk source (current :: other) →
    path = other ∨ Sooner (current :: path) (current :: other)

/-- What a search knows: the queue holds the foremost walks to vertices that were seen, in their
order, each an extension of a walk before all of them. The vertices that were taken off the queue
lead to none that was not seen, and the target is not among them. -/
structure Frontier (g : Graph) (source target : String) (queue : List (List String))
    (seen : List String) : Prop where
  foremost : ∀ path ∈ queue, ∃ current rest, path = current :: rest ∧ current ∈ seen ∧
    g.Foremost source current rest
  ordered : queue.Pairwise Sooner
  extended : ∀ path ∈ queue, ∀ other ∈ queue, Sooner path.tail other
  start : source ∈ seen
  settled : ∀ name ∈ seen, (∃ rest, name :: rest ∈ queue) ∨
    name ≠ target ∧ ∀ next ∈ g.successors name, next ∈ seen

namespace Frontier

variable {queue : List (List String)} {seen : List String} {current : String} {path : List String}

theorem initial (g : Graph) (source target : String) :
    Frontier g source target [[source]] [source] where
  foremost path member := by
    obtain rfl := List.mem_singleton.mp member
    refine ⟨source, [], rfl, List.mem_cons_self, .start, ?_⟩
    intro other _
    cases other with
    | nil => exact .inl rfl
    | cons name rest => exact .inr (.inl (by simp))
  ordered := List.pairwise_singleton _ _
  extended path member other listed := by
    obtain rfl := List.mem_singleton.mp member
    obtain rfl := List.mem_singleton.mp listed
    exact .inl (by simp)
  start := List.mem_cons_self
  settled name member := by
    obtain rfl := List.mem_singleton.mp member
    exact .inl ⟨[], List.mem_cons_self⟩

/-- No walk to a vertex that was not seen comes before the extension of the first in the queue. -/
theorem first_to_unseen (frontier : Frontier g source target ((current :: path) :: queue) seen)
    {next : String} {other : List String} (unseen : next ∉ seen)
    (walk : g.Walk source (next :: other)) :
    current :: path = other ∨ Sooner (next :: current :: path) (next :: other) := by
  generalize whole : next :: other = steps at walk
  induction walk generalizing next other with
  | start =>
    cases whole
    exact absurd frontier.start unseen
  | @step before next rest walk edge ih =>
    cases whole
    by_cases known : before ∈ seen
    · -- the walk leaves what was seen here, so the vertex is still in the queue
      rcases frontier.settled before known with ⟨known, queued⟩ | ⟨-, closed⟩
      · obtain ⟨_, _, same, _, foremost⟩ := frontier.foremost _ queued
        cases same
        have least : known = rest ∨ Sooner (before :: known) (before :: rest) :=
          foremost.first rest walk
        have ahead : current :: path = before :: known ∨
            Sooner (current :: path) (before :: known) := by
          rcases List.mem_cons.mp queued with same | later
          · exact .inl same.symm
          · exact .inr ((List.pairwise_cons.mp frontier.ordered).1 _ later)
        rcases ahead with same | ahead
        · rw [same]
          rcases least with rfl | least
          · exact .inl rfl
          · exact .inr (least.cons _ _)
        · apply Or.inr
          rcases least with rfl | least
          · exact ahead.cons _ _
          · exact (ahead.trans least).cons _ _
      · exact absurd (closed next edge) unseen
    · -- otherwise it is longer by more than one
      have length : (current :: path).length ≤ rest.length := by
        rcases ih known rfl with same | sooner
        · rw [same]
        · simpa using sooner.length_le
      apply Or.inr
      apply Or.inl
      simp only [List.length_cons] at length ⊢
      omega

/-- What is queued comes after the path that is taken off. -/
theorem sooner_of_mem_refill
    (frontier : Frontier g source target ((current :: path) :: queue) seen)
    {other : List String} (queued : other ∈ g.refill queue seen current path) :
    Sooner (current :: path) other := by
  rcases mem_refill.mp queued with old | ⟨next, _, rfl⟩
  · exact (List.pairwise_cons.mp frontier.ordered).1 other old
  · exact .cons_self next _

theorem foremost_refill (frontier : Frontier g source target ((current :: path) :: queue) seen)
    {longer : List String} (queued : longer ∈ g.refill queue seen current path) :
    ∃ last rest, longer = last :: rest ∧ last ∈ g.unseen seen current ++ seen ∧
      g.Foremost source last rest := by
  rcases mem_refill.mp queued with old | ⟨next, new, rfl⟩
  · obtain ⟨last, rest, same, known, foremost⟩ :=
      frontier.foremost longer (List.mem_cons_of_mem _ old)
    exact ⟨last, rest, same, List.mem_append_right _ known, foremost⟩
  · obtain ⟨_, _, same, _, foremost⟩ := frontier.foremost _ List.mem_cons_self
    cases same
    obtain ⟨edge, unseen⟩ := mem_unseen.mp new
    refine ⟨next, current :: path, rfl, List.mem_append_left _ new, .step foremost.walk edge, ?_⟩
    exact fun other walk => frontier.first_to_unseen unseen walk

/-- The extensions of a path come after all that was queued before, since those extend earlier
paths. -/
theorem ordered_refill (frontier : Frontier g source target ((current :: path) :: queue) seen) :
    (g.refill queue seen current path).Pairwise Sooner := by
  apply List.pairwise_append.mpr
  refine ⟨(List.pairwise_cons.mp frontier.ordered).2, ?_, ?_⟩
  · apply List.pairwise_map.mpr
    apply (pairwise_unseen g seen current).imp
    exact fun lt => .cons_of_lt lt _
  · intro old member longer extension
    obtain ⟨next, _, rfl⟩ := List.mem_map.mp extension
    obtain ⟨last, rest, rfl, _, _⟩ := frontier.foremost old (List.mem_cons_of_mem _ member)
    have before : Sooner rest (current :: path) :=
      frontier.extended _ (List.mem_cons_of_mem _ member) _ List.mem_cons_self
    exact before.cons last next

/-- The vertex that is taken off leads only to vertices that are seen from now on. -/
theorem settled_refill (frontier : Frontier g source target ((current :: path) :: queue) seen)
    (passed : current ≠ target) {name : String} (known : name ∈ g.unseen seen current ++ seen) :
    (∃ rest, name :: rest ∈ g.refill queue seen current path) ∨
      name ≠ target ∧ ∀ next ∈ g.successors name, next ∈ g.unseen seen current ++ seen := by
  rcases List.mem_append.mp known with new | old
  · exact .inl ⟨_, mem_refill.mpr (.inr ⟨name, new, rfl⟩)⟩
  · rcases frontier.settled name old with ⟨rest, queued⟩ | ⟨other, closed⟩
    · rcases List.mem_cons.mp queued with same | later
      · cases same
        refine .inr ⟨passed, fun next edge => ?_⟩
        by_cases known : next ∈ seen
        · exact List.mem_append_right _ known
        · exact List.mem_append_left _ (mem_unseen.mpr ⟨edge, known⟩)
      · exact .inl ⟨rest, mem_refill.mpr (.inl later)⟩
    · exact .inr ⟨other, fun next edge => List.mem_append_right _ (closed next edge)⟩

/-- Taking the first path off the queue and putting its extensions at the end keeps what is
known. -/
theorem step (frontier : Frontier g source target ((current :: path) :: queue) seen)
    (passed : current ≠ target) :
    Frontier g source target (g.refill queue seen current path)
      (g.unseen seen current ++ seen) where
  foremost _ queued := frontier.foremost_refill queued
  ordered := frontier.ordered_refill
  extended longer member other queued := by
    have after : Sooner (current :: path) other := frontier.sooner_of_mem_refill queued
    rcases mem_refill.mp member with old | ⟨next, _, rfl⟩
    · have before := frontier.extended longer (List.mem_cons_of_mem _ old) _ List.mem_cons_self
      exact before.trans after
    · exact after
  start := List.mem_append_right _ frontier.start
  settled _ known := frontier.settled_refill passed known

/-- With an empty queue all that can be reached was seen, and the target was not. -/
theorem not_walk (frontier : Frontier g source target [] seen) (path : List String) :
    ¬ g.Walk source (target :: path) := by
  have closed : ∀ name ∈ seen, name ≠ target ∧ ∀ next ∈ g.successors name, next ∈ seen := by
    intro name known
    rcases frontier.settled name known with ⟨_, queued⟩ | settled
    · cases queued
    · exact settled
  have stays : ∀ steps, g.Walk source steps → ∀ name rest, steps = name :: rest → name ∈ seen := by
    intro steps walk
    induction walk with
    | start =>
      rintro name rest ⟨⟩
      exact frontier.start
    | step _ edge ih =>
      rintro name rest ⟨⟩
      exact (closed _ (ih _ _ rfl)).2 _ edge
  intro walk
  exact (closed target (stays _ walk _ _ rfl)).1 rfl

end Frontier

/-- What a search answers: the foremost walk to its target, or nothing if there is no walk. -/
def Finds (g : Graph) (source target : String) : Option (List String) → Prop
  | none => ∀ path, ¬ g.Walk source (target :: path)
  | some found => ∃ path, found = (target :: path).reverse ∧ g.Foremost source target path

/-- A search ends before its fuel does, since every vertex enters the queue at most once. -/
theorem finds_searchFrom {fuel : Nat} {queue : List (List String)} {seen : List String}
    (closed : ∀ name, ∀ next ∈ g.successors name, g.contains next = true)
    (frontier : Frontier g source target queue seen) (distinct : seen.Nodup)
    (present : ∀ name ∈ seen, g.contains name = true)
    (enough : queue.length + g.vertexCount ≤ fuel + seen.length) :
    g.Finds source target (g.searchFrom target fuel queue seen) := by
  induction fuel, queue, seen using searchFrom.induct g target with
  | case1 queue seen =>
    have few : seen.length ≤ g.vertexCount := by
      have inside : seen.Subperm g.links.keys :=
        List.subperm_of_subset distinct fun name member =>
          NameMap.contains_iff.mp (present name member)
      simpa [vertexCount, NameMap.size, NameMap.keys] using inside.length_le
    have empty : queue = [] := List.length_eq_zero_iff.mp (by omega)
    subst empty
    exact frontier.not_walk
  | case2 => exact frontier.not_walk
  | case3 fuel queue seen ih =>
    obtain ⟨_, _, ⟨⟩, _⟩ := frontier.foremost [] List.mem_cons_self
  | case4 fuel current path queue seen reached =>
    rw [searchFrom, if_pos reached]
    obtain rfl := eq_of_beq reached
    obtain ⟨_, _, same, _, foremost⟩ := frontier.foremost _ List.mem_cons_self
    cases same
    exact ⟨path, rfl, foremost⟩
  | case5 fuel current path queue seen notReached fresh ih =>
    have passed : current ≠ target := by simpa using notReached
    rw [searchFrom_refill passed]
    apply ih
    · exact frontier.step passed
    · apply List.nodup_append.mpr
      refine ⟨(pairwise_unseen g seen current).imp String.ne_of_lt, distinct, ?_⟩
      rintro name new _ old rfl
      exact (mem_unseen.mp new).2 old
    · intro name known
      rcases List.mem_append.mp known with new | old
      · exact closed current name (mem_unseen.mp new).1
      · exact present name old
    · simp only [List.length_append, List.length_map, List.length_cons] at enough ⊢
      omega

theorem Foremost.isLeastPath {path : List String} (foremost : g.Foremost source target path) :
    IsLeastPath (fun a b => b ∈ g.successors a) source target (target :: path).reverse := by
  have sooner {other : List String}
      (isPath : IsPath (fun a b => b ∈ g.successors a) source target other) :
      (target :: path).reverse = other ∨ Sooner (target :: path) other.reverse := by
    rw [← other.reverse_reverse] at isPath
    obtain ⟨rest, same, walk⟩ := isPath_reverse_iff.mp isPath
    rw [same] at walk ⊢
    rcases foremost.first rest walk with rfl | sooner
    · exact .inl (by rw [← same, List.reverse_reverse])
    · exact .inr sooner
  refine ⟨isPath_reverse_iff.mpr ⟨path, rfl, foremost.walk⟩, ?_, ?_⟩
  · intro other isPath
    rcases sooner isPath with rfl | sooner
    · exact Nat.le_refl _
    · simpa using sooner.length_le
  · intro other isPath length
    rcases sooner isPath with same | shorter | ⟨-, before⟩
    · exact .inl same
    · simp only [List.length_reverse] at length shorter
      omega
    · exact .inr (by simpa using before)

/-- The foremost walk to a successor is the edge to it. -/
theorem Foremost.eq_of_successor {path : List String} (foremost : g.Foremost source target path)
    (edge : target ∈ g.successors source) (apart : target ≠ source) : path = [source] := by
  rcases foremost.first [source] (.step .start edge) with same | sooner
  · exact same
  · have short := sooner.length_le
    cases foremost.walk with
    | start => exact absurd rfl apart
    | @step current _ rest walk _ =>
      simp only [List.length_cons, List.length_nil] at short
      obtain rfl : rest = [] := List.length_eq_zero_iff.mp (by omega)
      cases walk
      rfl

theorem finds_shortestPath (closed : ∀ name, ∀ next ∈ g.successors name, g.contains next = true)
    (present : g.contains source = true) (targetPresent : g.contains target = true) :
    ∃ answer, g.shortestPath source target = .ok answer ∧ g.Finds source target answer := by
  refine ⟨g.searchFrom target (g.vertexCount + 1) [[source]] [source], ?_, ?_⟩
  · simp [shortestPath, present, targetPresent]
  · apply finds_searchFrom closed (.initial g source target)
    · simp
    · simpa using present
    · simp only [List.length_singleton]
      omega

theorem exists_shortestPath {additions : List Addition}
    (present : (ofAdditions additions).contains source = true)
    (targetPresent : (ofAdditions additions).contains target = true) :
    ∃ answer, (ofAdditions additions).shortestPath source target = .ok answer ∧
      IsAnswer (Linking additions) source target answer := by
  obtain ⟨answer, found, finds⟩ :=
    finds_shortestPath (fun _ _ linked => contains_successor linked) present targetPresent
  have links : (fun a b => b ∈ (ofAdditions additions).successors a) = Linking additions := by
    ext a b
    exact mem_successors_ofAdditions
  refine ⟨answer, found, ?_⟩
  cases answer with
  | none =>
    refine ⟨⟨fun _ reached => ?_, fun _ => rfl⟩, by simp⟩
    rw [← links] at reached
    obtain ⟨rest, walk⟩ := exists_walk_iff.mpr reached
    exact finds rest walk
  | some found =>
    obtain ⟨path, rfl, foremost⟩ := finds
    have reached := exists_walk_iff.mp ⟨path, foremost.walk⟩
    have least := foremost.isLeastPath
    rw [links] at reached least
    refine ⟨⟨by simp, fun unreachable => absurd reached unreachable⟩, ?_⟩
    rintro _ ⟨⟩
    exact least

/-- The path between two vertices is the least of the shortest, and there is none exactly if the
second cannot be reached. It depends on which vertices and edges were added, not on their order. -/
theorem shortestPath_isAnswer (additions : List Addition) (source target : String)
    (present : (ofAdditions additions).contains source = true)
    (targetPresent : (ofAdditions additions).contains target = true) :
    ∃ answer, (ofAdditions additions).shortestPath source target = .ok answer ∧
      IsAnswer (Linking additions) source target answer ∧
      ∀ others : List Addition, (∀ addition, addition ∈ others ↔ addition ∈ additions) →
        (ofAdditions others).shortestPath source target = .ok answer := by
  obtain ⟨answer, found, right⟩ := exists_shortestPath present targetPresent
  refine ⟨answer, found, right, fun others same => ?_⟩
  have links : Linking others = Linking additions := by
    ext a b
    simp only [Linking, same]
  have presentToo {name : String} (present : (ofAdditions additions).contains name = true) :
      (ofAdditions others).contains name = true := by
    simpa only [contains_ofAdditions, same] using present
  obtain ⟨other, otherFound, otherRight⟩ :=
    exists_shortestPath (presentToo present) (presentToo targetPresent)
  rw [links] at otherRight
  rw [otherFound, right.unique otherRight]

end Graph

namespace Crossing

def north : String := Vertex.datasourceName "north"

def south : String := Vertex.datasourceName "south"

/-- Two roads from north to south, and a detour. -/
def additions : List Graph.Addition :=
  [.vertex (.datasource "south"),
    .edge (.datasource "north") (.concept "west") .provides,
    .edge (.datasource "north") (.concept "east") .provides,
    .edge (.concept "west") (.datasource "south") .boundTo,
    .edge (.concept "east") (.datasource "south") .boundTo,
    .edge (.datasource "north") (.concept "away") .provides,
    .edge (.concept "away") (.concept "east") .derivesFrom]

/-- The road with the lesser name. -/
def road : List String := [north, Vertex.conceptName "east", south]

end Crossing

theorem Graph.shortestPath_isAnswer_crossing :
    (Graph.ofAdditions Crossing.additions).contains Crossing.north = true ∧
      (Graph.ofAdditions Crossing.additions).contains Crossing.south = true ∧
      IsLeastPath (Graph.Linking Crossing.additions) Crossing.north Crossing.south Crossing.road ∧
      ¬ Relation.ReflTransGen (Graph.Linking Crossing.additions) Crossing.south Crossing.north := by
  have north : (Graph.ofAdditions Crossing.additions).contains Crossing.north = true := by
    decide +kernel
  have south : (Graph.ofAdditions Crossing.additions).contains Crossing.south = true := by
    decide +kernel
  obtain ⟨there, found, right, _⟩ := Graph.shortestPath_isAnswer Crossing.additions _ _ north south
  obtain ⟨back, foundBack, rightBack, _⟩ :=
    Graph.shortestPath_isAnswer Crossing.additions _ _ south north
  have road : (Graph.ofAdditions Crossing.additions).shortestPath Crossing.north Crossing.south =
      .ok (some Crossing.road) := rfl
  have none : (Graph.ofAdditions Crossing.additions).shortestPath Crossing.south Crossing.north =
      .ok none := rfl
  cases found.symm.trans road
  cases foundBack.symm.trans none
  exact ⟨north, south, right.least _ rfl, rightBack.unreachable.mp rfl⟩

end SemanticQuery
