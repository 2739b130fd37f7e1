import EntityStore.Index.Lemmas

/-!
# An index as a finite map

An index keeps its entities by type first. Whatever is done to one that was empty at first, it
answers as a map from ids to entities would: one that adding overwrites at the entity's id and
removing erases. Its partitions serve the order of its lists and nothing else.

Main statement: `Index.refines_finite_map`.
-/

namespace EntityStore

variable {ix : Index} {m : OrderedMap Entity}

/-! ## Maps of entities by id -/

namespace OrderedMap

/-- Each entity stands under its own id. -/
def Keyed (m : OrderedMap Entity) : Prop := ∀ id e, m.find? id = some e → e.id = id

theorem Keyed.mem_values_iff (h : m.Keyed) {e : Entity} :
    e ∈ m.values ↔ m.find? e.id = some e := by
  simp only [values, List.mem_map, Prod.exists, exists_eq_right, mem_entries_iff]
  constructor
  · rintro ⟨id, hid⟩
    exact h id e hid ▸ hid
  · exact fun hid => ⟨e.id, hid⟩

theorem Keyed.map_id_values (h : m.Keyed) : m.values.map (·.id) = m.keys := by
  rw [values, keys, List.map_map]
  exact List.map_congr_left fun _ hentry => h _ _ (mem_entries_iff.1 hentry)

theorem Keyed.nodup_values (h : m.Keyed) : m.values.Nodup := by
  have hkeys := m.nodup_keys
  rw [← h.map_id_values] at hkeys
  exact (List.pairwise_map.1 hkeys).imp fun hne heq => hne (congrArg Entity.id heq)

theorem length_values (m : OrderedMap Entity) : m.values.length = m.size := List.length_map _

theorem isEmpty_eq_size (m : OrderedMap Entity) : m.isEmpty = (m.size == 0) := by
  rw [isEmpty, size]
  cases m.entries <;> rfl

end OrderedMap

/-! ## What an index takes out and counts -/

namespace Partitions

variable {ps : Partitions} {tag : TypeTag} {part : OrderedMap Entity}

theorem WellFormed.keyed (h : ps.WellFormed) (hp : ps.find? tag = some part) : part.Keyed :=
  fun _ _ he => (h.placed hp he).2

end Partitions

namespace Index

theorem take_fst (ix : Index) (id : EntityId) : (ix.take id).1 = ix.find? id := by
  apply Option.ext
  intro e
  rw [find?_eq_some_iff]
  show ix.partitions.removed? id = some e ↔ _
  rw [Partitions.removed?]
  cases htag : ix.partitions.tagOf? id with
  | none => simp [Partitions.not_holds_of_tagOf?_eq_none htag]
  | some tag =>
    obtain ⟨part, hp, hc⟩ := Partitions.tagOf?_eq_some htag
    rw [Option.bind_some, hp, Option.bind_some]
    constructor
    · intro he
      exact ⟨part, (ix.wellFormed.placed hp he).1 ▸ hp, he⟩
    · rintro ⟨other, ho, he⟩
      -- the partition that was found is the one of the entity's own type
      have heq := ix.wellFormed.unique hp ho hc (OrderedMap.contains_iff.2 ⟨e, he⟩)
      rw [heq, ho] at hp
      cases hp
      exact he

/-- The entities of one type are those of one partition. -/
theorem mem_partition_iff {tag : TypeTag} {part : OrderedMap Entity}
    (hp : ix.partitions.find? tag = some part) {e : Entity} :
    e ∈ part.values ↔ e ∈ ix.toList ∧ e.tag = tag := by
  rw [(ix.wellFormed.keyed hp).mem_values_iff, mem_toList_iff, find?_eq_some_iff]
  constructor
  · intro he
    have htag := (ix.wellFormed.placed hp he).1
    exact ⟨⟨part, htag ▸ hp, he⟩, htag⟩
  · rintro ⟨⟨other, ho, he⟩, rfl⟩
    rw [hp] at ho
    cases ho
    exact he

theorem countP_eq_size {tag : TypeTag} {part : OrderedMap Entity}
    (hp : ix.partitions.find? tag = some part) :
    ix.toList.countP (fun e => e.tag = tag) = part.size := by
  have hperm : (ix.toList.filter fun e => e.tag = tag).Perm part.values :=
    (List.perm_ext_iff_of_nodup (ix.nodup_toList.filter _) (ix.wellFormed.keyed hp).nodup_values).2
      fun e => by simp [mem_partition_iff hp]
  rw [List.countP_eq_length_filter, hperm.length_eq, OrderedMap.length_values]

/-- A type is counted if entities have it, and then as often as they do. -/
theorem find?_counts (ix : Index) (tag : TypeTag) :
    ix.counts.find? tag =
      let count := ix.toList.countP fun e => e.tag = tag
      if count = 0 then none else some count := by
  rw [counts, OrderedMap.find?_mapEntries]
  cases hp : ix.partitions.find? tag with
  | none =>
    have hnone : ix.toList.countP (fun e => e.tag = tag) = 0 := by
      refine List.countP_eq_zero.2 fun e he htag => ?_
      obtain ⟨part, hpart, _⟩ := find?_eq_some_iff.1 (mem_toList_iff.1 he)
      rw [of_decide_eq_true htag, hp] at hpart
      cases hpart
    rw [if_pos hnone]
    rfl
  | some part =>
    have hfull := ix.wellFormed.inhabited hp
    rw [OrderedMap.isEmpty_eq_size, beq_eq_false_iff_ne] at hfull
    simp only [countP_eq_size hp, if_neg hfull, Option.map_some]

/-! ## What an index answers -/

/-- An index answers every lookup as a map does. -/
def Mirrors (ix : Index) (m : OrderedMap Entity) : Prop := ∀ id, ix.find? id = m.find? id

/-- An index is arranged by type and answers every question as a map does. -/
structure Refines (ix : Index) (m : OrderedMap Entity) : Prop where
  /-- No partition is empty. -/
  inhabited : ∀ tag part, ix.partitions.find? tag = some part → part.isEmpty = false
  /-- Each entity stands in the partition of its own type, under its own id. -/
  placed : ∀ tag part id e, ix.partitions.find? tag = some part → part.find? id = some e →
    e.tag = tag ∧ e.id = id
  /-- No id stands in two partitions. -/
  unique : ∀ tag part tag' part' id, ix.partitions.find? tag = some part →
    ix.partitions.find? tag' = some part' → part.contains id = true → part'.contains id = true →
    tag = tag'
  get : ∀ id, ix.get id =
    match m.find? id with
    | some e => .ok e
    | none => .error (.entityDoesNotExist id)
  contains : ∀ id, ix.contains id = m.contains id
  /-- Removing an id gives what the map has under it. -/
  removed : ∀ id, (ix.take id).1 = m.find? id
  size : ix.size = m.size
  isEmpty : ix.isEmpty = m.isEmpty
  /-- Each type that entities of the map have is counted, as often as they have it. -/
  counts : ∀ tag, ix.counts.find? tag =
    let count := m.values.countP fun e => e.tag = tag
    if count = 0 then none else some count
  /-- Every entity of the map is listed, and no other. -/
  entities : ix.toList.Perm m.values
  ids : ix.ids.Perm m.keys
  /-- The lists go through the entities in one order, by type and then by id. -/
  ordered : ix.toList.Pairwise fun a b => a.tag < b.tag ∨ a.tag = b.tag ∧ a.id < b.id
  inStep : ix.ids = ix.toList.map (·.id)
  /-- Draining gives the list of all entities and leaves nothing. -/
  drained : ix.drain = (ix.toList, empty)

theorem Mirrors.keyed (h : ix.Mirrors m) : m.Keyed := fun _ _ he => id_of_find? ((h _).trans he)

theorem Mirrors.perm (h : ix.Mirrors m) : ix.toList.Perm m.values :=
  (List.perm_ext_iff_of_nodup ix.nodup_toList h.keyed.nodup_values).2 fun e => by
    rw [mem_toList_iff, h.keyed.mem_values_iff, h]

theorem Mirrors.size (h : ix.Mirrors m) : ix.size = m.size := by
  rw [← length_ids, ← map_id_toList, List.length_map, h.perm.length_eq, OrderedMap.length_values]

theorem isEmpty_eq_size (ix : Index) : ix.isEmpty = (ix.size == 0) := by
  rw [← length_ids, ← map_id_toList, List.length_map, Bool.eq_iff_iff, isEmpty_iff, beq_iff_eq,
    List.length_eq_zero_iff, List.eq_nil_iff_forall_not_mem]
  constructor
  · intro h e he
    rw [mem_toList_iff, h] at he
    cases he
  · intro h id
    refine Option.eq_none_iff_forall_not_mem.2 fun e he => h e ?_
    exact mem_toList_iff.2 (id_of_find? he ▸ he)

theorem Mirrors.refines (h : ix.Mirrors m) : ix.Refines m where
  inhabited _ _ := ix.wellFormed.inhabited
  placed _ _ _ _ := ix.wellFormed.placed
  unique _ _ _ _ _ := ix.wellFormed.unique
  get id := by cases hm : m.find? id <;> simp [Index.get, h id, hm]
  contains id := by rw [contains_eq_isSome, h id, OrderedMap.contains]
  removed id := (ix.take_fst id).trans (h id)
  size := h.size
  isEmpty := by rw [isEmpty_eq_size, h.size, OrderedMap.isEmpty_eq_size]
  counts tag := by rw [find?_counts, h.perm.countP_eq]
  entities := h.perm
  ids := by rw [← map_id_toList, ← h.keyed.map_id_values]; exact h.perm.map _
  ordered := ix.pairwise_toList
  inStep := ix.map_id_toList.symm
  drained := rfl

/-! ## Changes -/

inductive Change where
  | add (e : Entity)
  | addAll (entities : List Entity)
  | remove (id : EntityId)
  | removeAll (ids : List EntityId)
  | drain
  | clear

namespace Change

/-- What a change makes of an index. -/
def on (ix : Index) : Change → Index
  | add e => ix.add e
  | addAll entities => ix.addAll entities
  | remove id => (ix.take id).2
  | removeAll ids => ix.removeAll ids
  | drain => ix.drain.2
  | clear => ix.clear

/-- What a change makes of a map from ids to entities. -/
def onMap (m : OrderedMap Entity) : Change → OrderedMap Entity
  | add e => m.insert e.id e
  | addAll entities => entities.foldl (fun m e => m.insert e.id e) m
  | remove id => m.erase id
  | removeAll ids => ids.foldl OrderedMap.erase m
  | drain => OrderedMap.empty
  | clear => OrderedMap.empty

end Change

/-- The index that is left of an empty one after some changes. -/
def after (changes : List Change) : Index := changes.foldl Change.on empty

/-- The map that is left of an empty one after some changes. -/
def mapAfter (changes : List Change) : OrderedMap Entity :=
  changes.foldl Change.onMap OrderedMap.empty

theorem Mirrors.add (h : ix.Mirrors m) (e : Entity) : (ix.add e).Mirrors (m.insert e.id e) :=
  fun id => by rw [find?_add, OrderedMap.find?_insert, h id]

theorem Mirrors.remove (h : ix.Mirrors m) (id : EntityId) : (ix.remove id).Mirrors (m.erase id) :=
  fun other => by rw [find?_remove, OrderedMap.find?_erase, h other]

/-- One change keeps an index and a map in step. -/
theorem Mirrors.on (h : ix.Mirrors m) (c : Change) : (c.on ix).Mirrors (c.onMap m) := by
  cases c with
  | add e => exact h.add e
  | addAll entities =>
    show (ix.addAll entities).Mirrors (entities.foldl (fun m e => m.insert e.id e) m)
    induction entities generalizing ix m with
    | nil => exact h
    | cons e rest ih => exact ih (h.add e)
  | remove id => exact h.remove id
  | removeAll ids =>
    show (ix.removeAll ids).Mirrors (ids.foldl OrderedMap.erase m)
    induction ids generalizing ix m with
    | nil => exact h
    | cons id rest ih => exact ih (h.remove id)
  | drain => exact fun _ => rfl
  | clear => exact fun _ => rfl

theorem Mirrors.foldl (h : ix.Mirrors m) (changes : List Change) :
    (changes.foldl Change.on ix).Mirrors (changes.foldl Change.onMap m) := by
  induction changes generalizing ix m with
  | nil => exact h
  | cons c rest ih => exact ih (h.on c)

/-- Whatever is done to an index that was empty at first, it answers as the finite map from ids to
entities does to which the same is done. -/
theorem refines_finite_map (changes : List Change) : (after changes).Refines (mapAfter changes) :=
  (Mirrors.foldl (fun _ => rfl) changes).refines

/-- An id that comes back under another type has left its old partition, which is gone. -/
example :
    let ix := after [.add ⟨"a", .customer "Ada"⟩, .add ⟨"b", .node none⟩, .add ⟨"a", .node none⟩]
    ix.counts.entries = [("Node", 2)] ∧ ix.ids = ["a", "b"] := by decide +kernel

end Index

end EntityStore
