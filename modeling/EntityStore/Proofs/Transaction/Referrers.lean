import EntityStore.Index.Lemmas
import EntityStore.Transaction.Integrity

/-!
# One scan for all deletions

A pass looks once for the entities that refer to any of the deleted ids, and then hands each of them
to the deleted ids to which it refers. What every deleted id is given in this way is what a scan for
that id alone would have found.

Main statement: `Work.one_scan_serves_every_deletion`.
-/

namespace EntityStore

theorem Query.picks_referringTo {d : EntityId} {e : Entity} :
    (referringTo d).picks e = true ↔ e.id ≠ d ∧ d ∈ e.references := by
  simp [referringTo, passing, picks, admitsDeclared]

namespace Work

variable {w : Work} {d id : EntityId} {e : Entity} {q : Query}

/-! ## Handing referrers on -/

/-- However often an entity refers to an id, it joins once. -/
theorem find?_noteReferrer (targets : OrderedMap OrderedSet) (e : Entity) (d : EntityId) :
    (noteReferrer targets e).find? d =
      (targets.find? d).map fun s => if d ∈ e.references then s.add e.id else s := by
  unfold noteReferrer
  induction e.references generalizing targets with
  | nil => simp
  | cons id rest ih =>
    rw [List.foldl_cons, ih, OrderedMap.find?_modify]
    by_cases heq : id = d
    · subst heq
      rw [if_pos rfl, Option.map_map]
      congr 1
      funext s
      simp [OrderedMap.add_add]
    · simp [heq, Ne.symm heq]

theorem find?_foldl_noteReferrer (referrers : List Entity) (targets : OrderedMap OrderedSet)
    (d : EntityId) :
    (referrers.foldl noteReferrer targets).find? d =
      (targets.find? d).map
        (·.addAll ((referrers.filter fun e => e.references.contains d).map (·.id))) := by
  induction referrers generalizing targets with
  | nil => simp [OrderedMap.addAll]
  | cons e rest ih =>
    rw [List.foldl_cons, ih, find?_noteReferrer, Option.map_map]
    congr 1
    funext s
    by_cases href : d ∈ e.references <;> simp [href, OrderedMap.addAll]

theorem affectedBy_eq (w : Work) (referrers : List Entity) :
    w.affectedBy referrers = w.txn.deleted.mapEntries fun id _ =>
      ((OrderedMap.setOf (w.committedReferences id)).addAll
        ((referrers.filter fun e => e.references.contains id).map (·.id))).erase id := by
  refine OrderedMap.ext_find? fun d => ?_
  rw [affectedBy, OrderedMap.find?_mapEntries, find?_foldl_noteReferrer,
    OrderedMap.find?_mapEntries, OrderedMap.find?_mapEntries, Option.map_map, Option.map_map]
  rfl

/-! ## Scans -/

/-- An entity is to be put, or committed and not to be replaced, and it is not deleted. -/
def Shows (w : Work) (e : Entity) : Prop :=
  w.txn.deleted.contains e.id = false ∧
    (w.txn.modified.find? e.id = some e ∨
      w.txn.modified.contains e.id = false ∧ w.store.backend.table.find? e.id = some e)

/-- A query is answered with the entities that it picks of those that are shown. -/
theorem mem_matching_iff_shows : e ∈ w.matching q ↔ w.Shows e ∧ q.picks e = true := by
  simp only [matching, List.mem_append, Backend.findAll, Index.mem_findAll_iff, ownQuery,
    committedQuery, Query.without, Query.picks, Shows, Bool.false_eq_true, false_or,
    Bool.and_eq_true, Bool.not_eq_true', Bool.or_eq_false_iff]
  constructor
  · rintro (⟨hput, hadmits, hd, htest⟩ | ⟨hcommitted, hadmits, ⟨hd, hfree⟩, htest⟩)
    · exact ⟨⟨hd, .inl hput⟩, hadmits, htest⟩
    · exact ⟨⟨hd, .inr ⟨hfree, hcommitted⟩⟩, hadmits, htest⟩
  · rintro ⟨⟨hd, hput | ⟨hfree, hcommitted⟩⟩, hadmits, htest⟩
    · exact .inl ⟨hput, hadmits, hd, htest⟩
    · exact .inr ⟨hcommitted, hadmits, ⟨hd, hfree⟩, htest⟩

theorem picks_referrerQuery :
    w.referrerQuery.picks e = true ↔ ∃ d ∈ e.references, w.txn.deleted.contains d = true := by
  simp [referrerQuery, Query.passing, Query.picks, Query.admitsDeclared]

/-- What the common scan finds and hands to a deleted id is what a scan for that id finds. -/
theorem mem_matching_referringTo_iff (hd : w.txn.deleted.contains d = true) :
    e ∈ w.matching (.referringTo d) ↔ e ∈ w.matching w.referrerQuery ∧ d ∈ e.references := by
  rw [mem_matching_iff_shows, mem_matching_iff_shows, Query.picks_referringTo, picks_referrerQuery]
  constructor
  · rintro ⟨hshows, -, href⟩
    exact ⟨⟨hshows, d, href, hd⟩, href⟩
  · rintro ⟨⟨hshows, -⟩, href⟩
    -- what is shown is not deleted, so it is not the deleted entity itself
    refine ⟨hshows, ?_, href⟩
    rintro rfl
    exact absurd (hd.symm.trans hshows.1) (by simp)

theorem mem_committedReferences :
    id ∈ w.committedReferences d ↔
      ∃ e, w.store.backend.table.find? d = some e ∧ id ∈ e.references := by
  rw [committedReferences]
  cases w.store.backend.table.find? d <;> simp

/-- In every state of a transaction, whether or not an entity is being checked, one query finds what
the deletions affect. Exactly the deleted ids are given something, and each is given the ids to
which the committed entity refers, if there is one, and those of the entities that a query for
referrers of this id alone would find, without itself. -/
theorem one_scan_serves_every_deletion (w : Work) :
    w.cascadeTargets.1.keys = w.txn.deleted.keys ∧
    w.cascadeTargets.2 = w.count Statistics.countQuery ∧
    ∀ d, w.txn.deleted.contains d = true → ∃ targets, w.cascadeTargets.1.find? d = some targets ∧
      ∀ id, targets.contains id = true ↔ id ≠ d ∧
        ((∃ e, w.store.backend.table.find? d = some e ∧ id ∈ e.references) ∨
          ∃ e ∈ (w.findAll (.referringTo d)).1, e.id = id) := by
  have htargets : w.cascadeTargets.1 = w.affectedBy (w.matching w.referrerQuery) := rfl
  refine ⟨?_, rfl, fun d hd => ?_⟩
  · rw [htargets, affectedBy_eq, OrderedMap.keys_mapEntries]
  · obtain ⟨_, hfound⟩ := OrderedMap.contains_iff.1 hd
    refine ⟨_, by rw [htargets, affectedBy_eq, OrderedMap.find?_mapEntries, hfound]; rfl,
      fun id => ?_⟩
    have hscan : id ∈ ((w.matching w.referrerQuery).filter fun e => e.references.contains d).map
        (·.id) ↔ ∃ e ∈ (w.findAll (.referringTo d)).1, e.id = id := by
      show _ ↔ ∃ e ∈ w.matching (.referringTo d), e.id = id
      simp [mem_matching_referringTo_iff hd]
    rw [OrderedMap.contains_erase, Bool.and_eq_true, OrderedMap.contains_addAll,
      OrderedMap.contains_setOf, mem_committedReferences, hscan]
    simp [ne_comm]

/-- A transaction that deletes two of four probes, which refer to each other, and one of them to
itself. A third no longer refers to the first, and the fourth refers to both, and to the first
twice. -/
def clearance : Work :=
  ((Store.new .standard (.plain
    [⟨"a", .probe (.ofList [("ref1", some "b"), ("ref2", some "e")])⟩,
     ⟨"b", .probe (.ofList [("ref1", some "a"), ("ref2", some "b")])⟩,
     ⟨"c", .probe (.ofList [("ref1", some "a")])⟩,
     ⟨"d", .probe (.ofList [("ref1", some "a"), ("ref2", some "b"), ("ref3", some "a")])⟩])).begin
    "clears").onTxn fun t =>
      ((t.recordDeletion "a").recordDeletion "b").recordSnapshot
        ⟨"c", .probe (.ofList [("ref1", some "b")])⟩

/-- The third is left out for the first deletion and comes in for the second. -/
theorem clearance_is_served_by_one_scan :
    clearance.txn.deleted.contains "a" = true ∧ clearance.txn.deleted.contains "b" = true ∧
    (clearance.cascadeTargets.1.entries.map fun t => (t.1, t.2.keys)) =
      [("a", ["b", "d", "e"]), ("b", ["a", "c", "d"])] ∧
    ∃ targets, clearance.cascadeTargets.1.find? "a" = some targets ∧
      ∀ id, targets.contains id = true ↔ id ≠ "a" ∧
        ((∃ e, clearance.store.backend.table.find? "a" = some e ∧ id ∈ e.references) ∨
          ∃ e ∈ (clearance.findAll (.referringTo "a")).1, e.id = id) :=
  ⟨by decide +kernel, by decide +kernel, by decide +kernel,
    (one_scan_serves_every_deletion clearance).2.2 "a" (by decide +kernel)⟩

end Work

end EntityStore
