import EntityStore.Proofs.Index.Refinement

/-!
# Queries answered by an index

An index does not put every entity to the test. It passes over the partitions whose type a query
does not admit, and it takes the others whole where the query declares that it takes every entity of
the types that it admits. Going through all entities and testing each gives the same entities in the
same order, as long as the declaration is true.

Main statement: `Index.honest_iff_answers_by_filtering`.
-/

namespace EntityStore.Index

variable {ix : Index} {q : Query}

/-- An index answers a query as if it tested every entity that it lists. -/
structure Answers (ix : Index) (q : Query) : Prop where
  all : ix.findAll q = q.filter ix.toList
  into : ∀ found, ix.findAllInto q found = found ++ q.filter ix.toList
  first : ix.findFirst? q = (ix.findAll q).head?

/-- Where the declaration of a query is true, skipping its test makes no difference. -/
theorem takes_eq_picks (hq : q.Honest) : takes q = q.picks := by
  funext e
  unfold takes Query.picks
  cases hall : q.matchesAll with
  | false => simp
  | true =>
    cases hadmits : q.admits e.tag with
    | false => simp
    | true => simp [hq hall e hadmits]

theorem findAllInto_eq_append (ix : Index) (q : Query) (found : List Entity) :
    ix.findAllInto q found = found ++ ix.findAll q := by
  rw [findAllInto_eq, findAll_eq_flatMap]

theorem answers_of_honest (ix : Index) (hq : q.Honest) : ix.Answers q := by
  have hall : ix.findAll q = q.filter ix.toList := by
    rw [findAll_eq_filter, takes_eq_picks hq, Query.filter]
  refine ⟨hall, fun found => ?_, ix.findFirst?_eq_head? q⟩
  rw [findAllInto_eq_append, hall]

theorem Answers.test (h : ix.Answers q) {e : Entity} (he : e ∈ ix.toList)
    (hadmits : q.admits e.tag = true) (hall : q.matchesAll = true) : q.test e = true := by
  have htakes : e ∈ ix.findAll q := by
    rw [findAll_eq_filter]
    exact List.mem_filter.2 ⟨he, by simp [takes, hadmits, hall]⟩
  rw [h.all] at htakes
  have hpicks : q.picks e = true := (List.mem_filter.1 htakes).2
  rw [Query.picks, Bool.and_eq_true] at hpicks
  exact hpicks.2

/-! ## Indexes in use -/

/-- What may be done to an index from outside. Whoever is given an entity where it stands may change
it, but not its id or its type. -/
inductive Mutation where
  | change (c : Change)
  | edit (id : EntityId) (c : Entity.Edit)

def Mutation.on (ix : Index) : Mutation → Index
  | .change c => c.on ix
  | .edit id c => ix.edit id c

/-- The index that is left of an empty one after some mutations. -/
def reached (mutations : List Mutation) : Index := mutations.foldl Mutation.on empty

/-- A query is answered as if every entity were tested, whatever was done to the index before,
exactly if every entity of a type that it admits passes its test where it says so. -/
theorem honest_iff_answers_by_filtering (q : Query) :
    q.Honest ↔ ∀ mutations, (reached mutations).Answers q := by
  constructor
  · intro hq mutations
    exact answers_of_honest _ hq
  · intro h hall e hadmits
    have hanswers : (empty.add e).Answers q := h [.change (.add e)]
    have he : e ∈ (empty.add e).toList := mem_toList_iff.2 (by simp)
    exact hanswers.test he hadmits hall

end EntityStore.Index
