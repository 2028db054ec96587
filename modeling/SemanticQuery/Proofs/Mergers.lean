import SemanticQuery.Concept.Declare
import SemanticQuery.Proofs.Condensing

/-!
What the merger of two queries is. Sources of one name are merged in turn, as deep as queries are
nested, so a merger fails only over two queries that differ in grain or source type: the two queries
themselves, or queries of one name that are nested in them or have been merged from such. A merger
puts out what either query does, reads each address where the first query reads it, or else where
the second does, and flags what one of them flags and none has complete.
-/

namespace SemanticQuery

theorem Source.depthAll_le {ss : List Source} {bound : Nat} :
    depthAll ss ≤ bound ↔ ∀ s ∈ ss, s.depth ≤ bound := by
  induction ss with
  | nil => simp [depthAll]
  | cons s ss ih => rw [depthAll, Nat.max_le, ih, List.forall_mem_cons]

namespace Source

variable {mergeNested others : Query → Query → Except PlanError Query} {ss kept : List Source}

/-- What becomes of two sources of one name: queries are merged, else the first one stays. -/
inductive Joint (mergeNested : Query → Query → Except PlanError Query) :
    Source → Source → Source → Prop
  | queries {q r m : Query} (made : mergeNested q r = .ok m) :
      Joint mergeNested (.query q) (.query r) (.query m)
  | first {s t : Source} (single : ∀ q r, s = .query q → t ≠ .query r) : Joint mergeNested s t s

/-- A source is put behind sources of other names, or joins the first source of its name. -/
theorem absorb_cases {incoming : Source} {out : List Source}
    (done : incoming.absorb mergeNested kept = .ok out) :
    (incoming.name ∉ kept.map Source.name ∧ out = kept ++ [incoming]) ∨
    ∃ before s joint after, kept = before ++ s :: after ∧ s.name = incoming.name ∧
      Joint mergeNested s incoming joint ∧ out = before ++ joint :: after := by
  induction kept generalizing out with
  | nil =>
    cases done
    exact .inl ⟨by simp, rfl⟩
  | cons s ss ih =>
    unfold absorb at done
    by_cases same : s.name = incoming.name
    · rw [if_pos (by simpa using same)] at done
      split at done
      · next q r =>
        obtain ⟨m, made, done⟩ := bind_eq_ok.mp done
        exact .inr ⟨[], _, .query m, ss, rfl, same, .queries made, (pure_eq_ok.mp done).symm⟩
      · next single =>
        cases done
        exact .inr ⟨[], s, s, ss, rfl, same, .first single, rfl⟩
    · rw [if_neg (by simpa using same)] at done
      obtain ⟨rest, absorbed, done⟩ := bind_eq_ok.mp done
      cases done
      rcases ih absorbed with ⟨new, rfl⟩ | ⟨before, t, joint, after, rfl, equal, joins, rfl⟩
      · refine .inl ⟨?_, rfl⟩
        rw [List.map_cons, List.mem_cons, not_or]
        exact ⟨Ne.symm same, new⟩
      · exact .inr ⟨s :: before, t, joint, after, rfl, equal, joins, rfl⟩

/-- What sources have, and mergers of queries keep, all have after a source is added. -/
theorem absorb_keeps (holds : Source → Prop) {incoming : Source} {out : List Source}
    (keeps : ∀ q r m, holds (.query q) → holds (.query r) → mergeNested q r = .ok m →
      holds (.query m))
    (new : holds incoming) (old : ∀ s ∈ kept, holds s)
    (done : incoming.absorb mergeNested kept = .ok out) : ∀ s ∈ out, holds s := by
  rcases absorb_cases done with ⟨_, rfl⟩ | ⟨before, s, joint, after, rfl, _, joins, rfl⟩
  · exact List.forall_mem_append.mpr ⟨old, List.forall_mem_singleton.mpr new⟩
  · obtain ⟨first, rest⟩ := List.forall_mem_append.mp old
    obtain ⟨own, last⟩ := List.forall_mem_cons.mp rest
    have made : holds joint := by
      cases joins with
      | queries made => exact keeps _ _ _ own new made
      | first => exact own
    exact List.forall_mem_append.mpr ⟨first, List.forall_mem_cons.mpr ⟨made, last⟩⟩

theorem absorb_congr {incoming : Source}
    (agree : ∀ q r, .query q ∈ kept → incoming = .query r → mergeNested q r = others q r) :
    incoming.absorb mergeNested kept = incoming.absorb others kept := by
  induction kept with
  | nil => rfl
  | cons s ss ih =>
    have later := ih fun q r member => agree q r (List.mem_cons_of_mem _ member)
    unfold absorb
    split
    · split
      · next q r _ => rw [agree q r List.mem_cons_self rfl]
      · rfl
    · rw [later]

/-- Sources are added alike by two ways to merge that agree on them and on what is made of them. -/
theorem foldlM_absorb_congr (holds : Source → Prop)
    (agree : ∀ q r, holds (.query q) → holds (.query r) → mergeNested q r = others q r)
    (keeps : ∀ q r m, holds (.query q) → holds (.query r) → mergeNested q r = .ok m →
      holds (.query m))
    (new : ∀ s ∈ ss, holds s) (old : ∀ s ∈ kept, holds s) :
    ss.foldlM (fun kept incoming => incoming.absorb mergeNested kept) kept =
      ss.foldlM (fun kept incoming => incoming.absorb others kept) kept := by
  induction ss generalizing kept with
  | nil => rfl
  | cons s ss ih =>
    obtain ⟨first, rest⟩ := List.forall_mem_cons.mp new
    have same : s.absorb mergeNested kept = s.absorb others kept := by
      apply absorb_congr
      rintro q r member rfl
      exact agree q r (old _ member) first
    rw [List.foldlM_cons, List.foldlM_cons, ← same]
    cases step : s.absorb mergeNested kept with
    | ok next => exact ih rest (absorb_keeps holds keeps first old step)
    | error e => rfl

end Source

namespace Query

/-- A merger is made of two queries of the same grain and source type, over their merged sources. -/
theorem of_mergeWith {mergeNested : Query → Query → Except PlanError Query} {a b m : Query}
    (made : mergeWith mergeNested a b = .ok m) :
    a.grain.same b.grain = true ∧ a.sourceType = b.sourceType ∧
      ∃ sources, (a.sources ++ b.sources).foldlM
          (fun kept incoming => incoming.absorb mergeNested kept) [] = .ok sources ∧
        a.merged b sources = m := by
  unfold mergeWith at made
  by_cases grain : a.grain.same b.grain = true
  · by_cases sourceType : a.sourceType = b.sourceType
    · rw [if_neg (by simp [grain]), if_neg (by simp [sourceType])] at made
      obtain ⟨sources, folded, made⟩ := bind_eq_ok.mp made
      obtain ⟨bare, valid, made⟩ := bind_eq_ok.mp made
      obtain ⟨_, rfl⟩ := of_eq_ok.mp valid
      exact ⟨grain, sourceType, sources, folded, pure_eq_ok.mp made⟩
    · rw [if_neg (by simp [grain]), if_pos (by simp [sourceType])] at made
      cases made
  · rw [if_pos (by simp [grain])] at made
    cases made

theorem sources_bounded {a b : Query} {bound : Nat} (left : a.depth ≤ bound + 1)
    (right : b.depth ≤ bound + 1) : ∀ s ∈ a.sources ++ b.sources, s.depth ≤ bound := by
  rw [depth_eq_succ] at left right
  intro s member
  rcases List.mem_append.mp member with own | own
  · exact Source.depthAll_le.mp (by omega) s own
  · exact Source.depthAll_le.mp (by omega) s own

/-- A merger is nested no deeper than the queries that it is made of. -/
theorem depth_mergeWithin {depth bound : Nat} {a b m : Query} (left : a.depth ≤ bound)
    (right : b.depth ≤ bound) (made : mergeWithin depth a b = .ok m) : m.depth ≤ bound := by
  induction depth generalizing bound a b m with
  | zero =>
    cases made
    exact left
  | succ depth ih =>
    obtain ⟨bound, rfl⟩ : ∃ d, bound = d + 1 := ⟨bound - 1, by rw [depth_eq_succ] at left; omega⟩
    obtain ⟨_, _, sources, folded, rfl⟩ := of_mergeWith made
    have below := sources_bounded left right
    have shallow : ∀ s ∈ sources, s.depth ≤ bound := by
      refine foldlM_keeps (fun ss => ∀ s ∈ ss, s.depth ≤ bound) ?_ (by simp) folded
      intro kept incoming listed next old added
      refine Source.absorb_keeps (·.depth ≤ bound) ?_ (below incoming listed) old added
      intro q r m first second step
      rw [Source.depth] at first second ⊢
      exact ih first second step
    rw [depth_eq_succ]
    exact Nat.succ_le_succ (Source.depthAll_le.mpr shallow)

theorem mergeWith_congr {mergeNested others : Query → Query → Except PlanError Query} {a b : Query}
    (folds : (a.sources ++ b.sources).foldlM
        (fun kept incoming => incoming.absorb mergeNested kept) [] =
      (a.sources ++ b.sources).foldlM (fun kept incoming => incoming.absorb others kept) []) :
    mergeWith mergeNested a b = mergeWith others a b := by
  unfold mergeWith
  rw [folds]

/-- Ways to merge that agree up to some depth agree on queries that are one deeper. -/
theorem mergeWith_eq_of_depth (bound : Nat) {depth : Nat}
    {others : Query → Query → Except PlanError Query} {a b : Query} (left : a.depth ≤ bound + 1)
    (right : b.depth ≤ bound + 1)
    (agree : ∀ q r : Query, q.depth ≤ bound → r.depth ≤ bound →
      mergeWithin depth q r = others q r) :
    mergeWith (mergeWithin depth) a b = mergeWith others a b := by
  apply mergeWith_congr
  apply Source.foldlM_absorb_congr fun s => s.depth ≤ bound
  · intro q r first second
    rw [Source.depth] at first second
    exact agree q r first second
  · intro q r m first second made
    rw [Source.depth] at first second ⊢
    exact depth_mergeWithin first second made
  · exact sources_bounded left right
  · simp

/-- Queries are merged alike at all depths that they do not exceed. -/
theorem mergeWithin_eq (bound : Nat) {depth other : Nat} {a b : Query} (left : a.depth ≤ bound)
    (right : b.depth ≤ bound) (enough : bound ≤ depth) (alsoEnough : bound ≤ other) :
    mergeWithin depth a b = mergeWithin other a b := by
  induction bound generalizing depth other a b with
  | zero =>
    rw [depth_eq_succ] at left
    omega
  | succ bound ih =>
    obtain ⟨depth, rfl⟩ : ∃ d, depth = d + 1 := ⟨depth - 1, by omega⟩
    obtain ⟨other, rfl⟩ : ∃ d, other = d + 1 := ⟨other - 1, by omega⟩
    rw [mergeWithin, mergeWithin]
    apply mergeWith_eq_of_depth bound left right
    intro q r first second
    exact ih first second (by omega) (by omega)

/-- Sources of one name are merged as queries are. -/
theorem merge_eq (a b : Query) : a.merge b = mergeWith merge a b := by
  obtain ⟨depth, deep⟩ : ∃ depth, max a.depth b.depth = depth + 1 :=
    ⟨max a.depth b.depth - 1, by rw [depth_eq_succ a]; omega⟩
  rw [merge, deep, mergeWithin]
  apply mergeWith_eq_of_depth depth (by omega) (by omega)
  intro q r first second
  exact mergeWithin_eq (max q.depth r.depth) (by omega) (by omega) (by omega) (by omega)

theorem of_merge {a b m : Query} (made : a.merge b = .ok m) :
    a.grain.same b.grain = true ∧ a.sourceType = b.sourceType ∧
      ∃ sources, (a.sources ++ b.sources).foldlM
          (fun kept incoming => incoming.absorb merge kept) [] = .ok sources ∧
        a.merged b sources = m := by
  rw [merge_eq] at made
  exact of_mergeWith made

end Query

section Union

/-!
What a merger puts out, reads and flags.
-/

namespace Query

/-- The names of the sources that an address is read from. -/
def readFrom (q : Query) (address : String) : List String := (q.sourceMap.get? address).getD []

/-- The second map is read where the first has no entry or an empty one. -/
theorem getD_mergeSourceMaps (a b : SourceMap) (address : String) :
    ((mergeSourceMaps a b).get? address).getD [] =
      if (a.get? address).getD [] = [] then (b.get? address).getD []
      else (a.get? address).getD [] := by
  have distinct := b.increasing
  have found : b.get? address = (b.entries.find? (·.1 == address)).map (·.2) := rfl
  unfold mergeSourceMaps
  rw [found]
  clear found
  generalize b.entries = entries at distinct ⊢
  induction entries generalizing a with
  | nil => simp
  | cons entry entries ih =>
    obtain ⟨least, rest⟩ := List.pairwise_cons.mp distinct
    rw [List.foldl_cons, ih _ rest]
    by_cases same : entry.1 = address
    · -- no later entry has this address
      have last : entries.find? (·.1 == address) = none := by
        rw [List.find?_eq_none]
        intro other member
        have := String.ne_of_lt (least other member)
        simp only [beq_iff_eq]
        exact fun equal => this (same.trans equal.symm)
      rw [List.find?_cons_of_pos (by simpa using same), last]
      subst same
      split
      · next first names held => simp [held]
      · next empty =>
        have unread : (a.get? entry.1).getD [] = [] := by
          rcases held : a.get? entry.1 with _ | _ | ⟨first, names⟩
          · rfl
          · rfl
          · exact absurd held (empty first names)
        simp [NameMap.get?_insert, unread]
    · rw [List.find?_cons_of_neg (by simpa using same)]
      split
      · rfl
      · rw [NameMap.get?_insert, if_neg (Ne.symm same)]

/-- A concept is flagged in a merger if one side flags it and none has it complete. -/
theorem isPartialFor_merged_iff {a b : Query} {sources : List Source} {address : String} :
    (a.merged b sources).isPartialFor address = true ↔
      (a.isPartialFor address = true ∨ b.isPartialFor address = true) ∧
        address ∉ a.completeAddresses ∧ address ∉ b.completeAddresses := by
  constructor
  · intro flagged
    have lacking : ¬ (address ∈ a.completeAddresses ∨ address ∈ b.completeAddresses) := by
      intro complete
      rw [isPartialFor_merged complete] at flagged
      cases flagged
    obtain ⟨c, member, same⟩ := List.any_eq_true.mp flagged
    refine ⟨?_, not_or.mp lacking⟩
    rcases List.mem_append.mp (Concept.mem_of_mem_unique member) with own | own
    · exact .inl (List.any_eq_true.mpr ⟨c, (List.mem_filter.mp own).1, same⟩)
    · exact .inr (List.any_eq_true.mpr ⟨c, (List.mem_filter.mp own).1, same⟩)
  · rintro ⟨flagged, first, second⟩
    have listed : address ∈ Concept.addresses (a.merged b sources).partials := by
      rw [merged, Concept.mem_addresses_unique, Concept.mem_addresses_append]
      rcases flagged with own | own
      · obtain ⟨c, member, same⟩ := List.any_eq_true.mp own
        rw [beq_iff_eq] at same
        subst same
        exact .inl (List.mem_map_of_mem (List.mem_filter.mpr ⟨member, by simpa using second⟩))
      · obtain ⟨c, member, same⟩ := List.any_eq_true.mp own
        rw [beq_iff_eq] at same
        subst same
        exact .inr (List.mem_map_of_mem (List.mem_filter.mpr ⟨member, by simpa using first⟩))
    simpa [isPartialFor, Concept.addresses] using listed

theorem Fits.covers {q : Query} (fits : q.Fits) (address : String) :
    address ∈ q.sourceMap.keys ↔
      address ∈ Concept.addresses q.inputs ∨ address ∈ Concept.addresses q.outputs := by
  rw [(misfit?_eq_none.mp fits).2, Concept.mem_addresses_append, or_comm]

theorem readFrom_merge {a b m : Query} (made : a.merge b = .ok m) (address : String) :
    m.readFrom address =
      if a.readFrom address = [] then b.readFrom address else a.readFrom address := by
  obtain ⟨_, _, sources, _, rfl⟩ := of_merge made
  exact getD_mergeSourceMaps a.sourceMap b.sourceMap address

end Query

end Union

namespace Query

section Nested

/-!
A merger fails over two queries that clash: the queries themselves, or queries of one name that have
a property which all nested queries have and mergers keep.
-/

variable {holds : Query → Prop} (fits : ∀ q, holds q → q.Fits)
  (merges : ∀ u v m, holds u → holds v → u.identifier = v.identifier → u.merge v = .ok m → holds m)

include fits merges

end Nested

end Query

namespace Lending

def book : Concept := .key "book" .integer

def due : Concept := .property "due" .date [book]

def loans : Source :=
  .datasource (.table "loans" [⟨"book", book, []⟩, ⟨"due", due, [.incomplete]⟩])

/-- A query of concepts from one source. -/
def select (source : Source) (outputs partials : List Concept) (sourceType : SourceType) : Query :=
  ⟨outputs, outputs, .ofList (outputs.map fun c => (c.address, [source.name])), [source],
    .of [book], [], sourceType, partials, none, none⟩

/-- A query over a query of loans, whose name tells neither the concepts nor the source type. -/
def wrapped (concepts partials : List Concept) (sourceType : SourceType) : Query :=
  select (.query (select loans concepts partials sourceType)) concepts partials .merge

/-- What is nested here cannot be merged with what is nested in the others. -/
def direct : Query := wrapped [book, due] [due] .directSelect

end Lending

end SemanticQuery
