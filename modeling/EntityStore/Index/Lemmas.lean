import EntityStore.Index.Basic

/-!
# Lookups in an index

What each operation on an index does to its lookups. Main statements: an index is the finite map
that adding an entity overwrites at its id (`find?_add`) and that removing an id erases
(`find?_remove`), it lists exactly the entities that it finds (`mem_toList_iff`), no id twice
(`nodup_ids`), and two indexes that answer every lookup alike are the same index (`ext_find?`).
-/

namespace EntityStore

namespace Partitions

variable {ps : Partitions} {id other : EntityId} {e x : Entity} {tag : TypeTag}

/-- An entity stands under an id in the partition of its type. -/
def Holds (ps : Partitions) (id : EntityId) (e : Entity) : Prop :=
  ∃ part, ps.find? e.tag = some part ∧ part.find? id = some e

theorem not_holds_of_tagOf?_eq_none (h : ps.tagOf? id = none) : ¬ ps.Holds id e := by
  rintro ⟨part, hp, he⟩
  have hc := tagOf?_eq_none h hp
  rw [OrderedMap.contains_iff.2 ⟨e, he⟩] at hc
  cases hc

theorem not_holds_dropFrom (hps : ps.WellFormed) (h : ps.tagOf? id = some tag) :
    ¬ (ps.dropFrom tag id).Holds id e := by
  rintro ⟨part, hp, he⟩
  obtain ⟨before, hb, ⟨hne, rfl⟩ | ⟨_, rfl, _⟩⟩ := find?_dropFrom hp
  · obtain ⟨old, ho, hc⟩ := tagOf?_eq_some h
    exact hne (hps.unique hb ho (OrderedMap.contains_iff.2 ⟨e, he⟩) hc)
  · simp at he

theorem holds_dropFrom_iff (hne : id ≠ other) :
    (ps.dropFrom tag id).Holds other e ↔ ps.Holds other e := by
  constructor
  · rintro ⟨part, hp, he⟩
    obtain ⟨before, hb, ⟨_, rfl⟩ | ⟨_, rfl, _⟩⟩ := find?_dropFrom hp
    · exact ⟨part, hb, he⟩
    · exact ⟨before, hb, (OrderedMap.find?_erase_eq_some.1 he).2⟩
  · rintro ⟨part, hp, he⟩
    unfold dropFrom
    split
    · exact ⟨part, hp, he⟩
    · rename_i before hb
      have kept : e.tag = tag → (before.erase id).find? other = some e := by
        intro htag
        rw [htag, hb] at hp
        cases hp
        simp [hne, he]
      split
      · rename_i hempty
        have htag : tag ≠ e.tag := by
          intro htag
          have hmem := OrderedMap.mem_entries_iff.2 (kept htag.symm)
          rw [List.isEmpty_iff.1 hempty] at hmem
          cases hmem
        exact ⟨part, by simp [htag, hp], he⟩
      · by_cases htag : tag = e.tag
        · exact ⟨before.erase id, by simp [htag], kept htag.symm⟩
        · exact ⟨part, by simp [htag, hp], he⟩

theorem holds_makeRoom_iff (hne : e.id ≠ other) :
    (ps.makeRoom e).Holds other x ↔ ps.Holds other x := by
  unfold makeRoom
  split
  · rfl
  · split
    · rfl
    · exact holds_dropFrom_iff hne

theorem holds_place_iff_of_ne (hne : e.id ≠ other) :
    (ps.place e).Holds other x ↔ ps.Holds other x := by
  unfold Holds place
  by_cases htag : e.tag = x.tag
  · simp only [OrderedMap.find?_insert, htag, if_true, Option.some.injEq, exists_eq_left',
      if_neg hne]
    cases ps.find? x.tag <;> simp
  · simp [htag]

/-- An entity put in its place is what stands under its id, if room was made for it. -/
theorem holds_place_iff
    (hroom : ∀ {tag part}, ps.find? tag = some part → part.contains e.id = true → tag = e.tag) :
    (ps.place e).Holds e.id x ↔ x = e := by
  unfold Holds place
  constructor
  · rintro ⟨part, hp, hx⟩
    rw [OrderedMap.find?_insert] at hp
    split at hp
    · cases hp
      simpa [eq_comm] using hx
    · rename_i htag
      exact absurd (hroom hp (OrderedMap.contains_iff.2 ⟨x, hx⟩)).symm htag
  · rintro rfl
    simp

end Partitions

namespace Index

variable {ix : Index} {id : EntityId} {e : Entity}

/-- A lookup finds what the partitions hold. -/
theorem find?_eq_some_iff : ix.find? id = some e ↔ ix.partitions.Holds id e := by
  have holds : ∀ {x}, ix.find? id = some x → ix.partitions.Holds id x := by
    intro x h
    obtain ⟨part, hmem, hx⟩ := List.exists_of_findSome?_eq_some h
    obtain ⟨⟨tag, _⟩, hentry, rfl⟩ := List.mem_map.1 hmem
    have hp := OrderedMap.mem_entries_iff.1 hentry
    exact ⟨_, (ix.wellFormed.placed hp hx).1 ▸ hp, hx⟩
  refine ⟨holds, fun ⟨part, hp, he⟩ => ?_⟩
  cases hfound : ix.find? id with
  | none =>
    have hmem := List.mem_map_of_mem (f := Prod.snd) (OrderedMap.mem_entries_iff.2 hp)
    rw [List.findSome?_eq_none_iff.1 hfound part hmem] at he
    cases he
  | some x =>
    obtain ⟨other, ho, hx⟩ := holds hfound
    have htag := ix.wellFormed.unique ho hp (OrderedMap.contains_iff.2 ⟨x, hx⟩)
      (OrderedMap.contains_iff.2 ⟨e, he⟩)
    rw [htag, hp] at ho
    cases ho
    exact hx.symm.trans he

theorem id_of_find? (h : ix.find? id = some e) : e.id = id := by
  obtain ⟨_, hp, he⟩ := find?_eq_some_iff.1 h
  exact (ix.wellFormed.placed hp he).2

theorem contains_eq_isSome (ix : Index) (id : EntityId) :
    ix.contains id = (ix.find? id).isSome := by
  simp [contains, find?, OrderedMap.contains, List.isSome_findSome?]

theorem contains_iff_find? : ix.contains id = true ↔ ∃ e, ix.find? id = some e := by
  rw [contains_eq_isSome, Option.isSome_iff_exists]

@[simp] theorem find?_empty (id : EntityId) : (empty : Index).find? id = none := rfl

/-- Removing an id erases it and nothing else. -/
@[simp] theorem find?_remove (ix : Index) (id other : EntityId) :
    (ix.remove id).find? other = if id = other then none else ix.find? other := by
  apply Option.ext
  intro x
  rw [find?_eq_some_iff]
  show (ix.partitions.remove id).Holds other x ↔ _
  unfold Partitions.remove
  cases htag : ix.partitions.tagOf? id with
  | none =>
    by_cases hid : id = other
    · subst hid
      simp [Partitions.not_holds_of_tagOf?_eq_none htag]
    · simp [hid, find?_eq_some_iff]
  | some tag =>
    by_cases hid : id = other
    · subst hid
      simp [Partitions.not_holds_dropFrom ix.wellFormed htag]
    · simp [hid, find?_eq_some_iff, Partitions.holds_dropFrom_iff hid]

/-- Adding an entity overwrites its id and nothing else. -/
@[simp] theorem find?_add (ix : Index) (e : Entity) (other : EntityId) :
    (ix.add e).find? other = if e.id = other then some e else ix.find? other := by
  apply Option.ext
  intro x
  rw [find?_eq_some_iff]
  show ((ix.partitions.makeRoom e).place e).Holds other x ↔ _
  by_cases hid : e.id = other
  · subst hid
    rw [Partitions.holds_place_iff (Partitions.eq_tag_of_makeRoom ix.wellFormed)]
    simp [eq_comm]
  · rw [Partitions.holds_place_iff_of_ne hid, Partitions.holds_makeRoom_iff hid,
      ← find?_eq_some_iff, if_neg hid]

/-- Changing an entity where it stands changes what its id finds and nothing else. -/
@[simp] theorem find?_edit (ix : Index) (id other : EntityId) (change : Entity.Edit) :
    (ix.edit id change).find? other =
      if id = other then (ix.find? other).map change.apply else ix.find? other := by
  have hvalues : (ix.edit id change).partitions.values = ix.partitions.values.map fun part =>
      part.mapEntries fun key e => if key = id then change.apply e else e := by
    simp [edit, Partitions.edit, OrderedMap.values, OrderedMap.mapEntries]
  rw [find?, find?, hvalues]
  induction ix.partitions.values with
  | nil => simp
  | cons part rest ih =>
    rw [List.map_cons, List.findSome?_cons, List.findSome?_cons, ih, OrderedMap.find?_mapEntries]
    by_cases hid : id = other
    · subst hid
      cases part.find? id <;> simp
    · cases part.find? other <;> simp [hid, Ne.symm hid]

theorem contains_add (ix : Index) (e : Entity) (other : EntityId) :
    (ix.add e).contains other = (decide (e.id = other) || ix.contains other) := by
  by_cases h : e.id = other <;> simp [contains_eq_isSome, h]

theorem contains_remove (ix : Index) (id other : EntityId) :
    (ix.remove id).contains other = (decide (id ≠ other) && ix.contains other) := by
  by_cases h : id = other <;> simp [contains_eq_isSome, h]

/-- An index lists exactly the entities that it finds. -/
theorem mem_toList_iff : e ∈ ix.toList ↔ ix.find? e.id = some e := by
  simp only [toList, OrderedMap.values, List.mem_flatMap, List.mem_map, Prod.exists,
    exists_eq_right, find?_eq_some_iff, OrderedMap.mem_entries_iff]
  constructor
  · rintro ⟨part, ⟨tag, hp⟩, id, he⟩
    obtain ⟨htag, hid⟩ := ix.wellFormed.placed hp he
    exact ⟨part, htag ▸ hp, hid ▸ he⟩
  · rintro ⟨part, hp, he⟩
    exact ⟨part, ⟨e.tag, hp⟩, e.id, he⟩

theorem all_toList_iff {test : Entity → Bool} :
    ix.toList.all test = true ↔ ∀ id e, ix.find? id = some e → test e = true := by
  rw [List.all_eq_true]
  constructor
  · intro h id e he
    obtain rfl := id_of_find? he
    exact h e (mem_toList_iff.2 he)
  · intro h e he
    exact h e.id e (mem_toList_iff.1 he)

/-! ## Whole indexes -/

section Extensionality

variable {jx : Index} {tag : TypeTag} {part : OrderedMap Entity}

/-- A partition of one index lies inside a partition of any index with the same lookups. -/
theorem exists_partition_of_find?_eq (h : ∀ id, ix.find? id = jx.find? id)
    (hp : ix.partitions.find? tag = some part) :
    ∃ part', jx.partitions.find? tag = some part' ∧
      ∀ {id e}, part.find? id = some e → part'.find? id = some e := by
  have moved : ∀ {id e}, part.find? id = some e →
      ∃ part', jx.partitions.find? tag = some part' ∧ part'.find? id = some e := by
    intro id e he
    obtain ⟨rfl, rfl⟩ := ix.wellFormed.placed hp he
    exact find?_eq_some_iff.1 (h _ ▸ find?_eq_some_iff.2 ⟨part, hp, he⟩)
  -- a partition holds some entity, which makes its tag known to the other index
  obtain ⟨⟨id, e⟩, hmem⟩ :=
    List.exists_mem_of_ne_nil _ (List.isEmpty_eq_false_iff.1 (ix.wellFormed.inhabited hp))
  obtain ⟨part', hp', _⟩ := moved (OrderedMap.mem_entries_iff.1 hmem)
  refine ⟨part', hp', fun he => ?_⟩
  obtain ⟨other, ho, he'⟩ := moved he
  rw [hp'] at ho
  cases ho
  exact he'

theorem partition_of_find?_eq (h : ∀ id, ix.find? id = jx.find? id)
    (hp : ix.partitions.find? tag = some part) : jx.partitions.find? tag = some part := by
  obtain ⟨part', hp', hle⟩ := exists_partition_of_find?_eq h hp
  obtain ⟨part'', hp'', hge⟩ := exists_partition_of_find?_eq (fun id => (h id).symm) hp'
  rw [hp] at hp''
  cases hp''
  rw [hp', OrderedMap.ext_find? fun id => Option.ext fun e => ⟨hge, hle⟩]

/-- Two indexes that answer every lookup alike are the same index. -/
theorem ext_find? (h : ∀ id, ix.find? id = jx.find? id) : ix = jx := by
  have parts : ix.partitions = jx.partitions :=
    OrderedMap.ext_find? fun tag => Option.ext fun part =>
      ⟨partition_of_find?_eq h, partition_of_find?_eq fun id => (h id).symm⟩
  obtain ⟨_, _⟩ := ix
  obtain ⟨_, _⟩ := jx
  cases parts
  rfl

end Extensionality

theorem add_add {x : Entity} (h : e.id = x.id) (ix : Index) : (ix.add e).add x = ix.add x := by
  refine ext_find? fun id => ?_
  by_cases hid : x.id = id <;> simp [h, hid]

theorem remove_add_self (h : ix.find? e.id = some e) : (ix.remove e.id).add e = ix := by
  refine ext_find? fun id => ?_
  by_cases hid : e.id = id
  · simp [hid, ← h]
  · simp [hid]

theorem remove_add (ix : Index) (e : Entity) : (ix.remove e.id).add e = ix.add e := by
  refine ext_find? fun id => ?_
  by_cases hid : e.id = id <;> simp [hid]

theorem add_remove (ix : Index) (e : Entity) : (ix.add e).remove e.id = ix.remove e.id := by
  refine ext_find? fun id => ?_
  by_cases hid : e.id = id <;> simp [hid]

theorem remove_remove (ix : Index) (id : EntityId) : (ix.remove id).remove id = ix.remove id := by
  refine ext_find? fun other => ?_
  by_cases hid : id = other <;> simp [hid]

theorem remove_eq_self (h : ix.find? id = none) : ix.remove id = ix := by
  refine ext_find? fun other => ?_
  by_cases hid : id = other
  · simp [← hid, h]
  · simp [hid]

/-! ## Lists of changes -/

theorem find?_removeAll (ix : Index) (ids : List EntityId) (id : EntityId) :
    (ix.removeAll ids).find? id = if id ∈ ids then none else ix.find? id := by
  induction ids generalizing ix with
  | nil => simp [removeAll]
  | cons other rest ih =>
    rw [removeAll, List.foldl_cons, ← removeAll, ih, find?_remove]
    by_cases hid : other = id
    · simp [hid]
    · simp [hid, Ne.symm hid]

/-- What is found after entities were added is one of them, or was there before. -/
theorem mem_of_find?_addAll {entities : List Entity} {id : EntityId} {e : Entity}
    (h : (ix.addAll entities).find? id = some e) : e ∈ entities ∨ ix.find? id = some e := by
  induction entities generalizing ix with
  | nil => exact .inr h
  | cons x rest ih =>
    have hrest : ((ix.add x).addAll rest).find? id = some e := h
    rcases ih hrest with hmem | hadded
    · exact .inl (List.mem_cons_of_mem _ hmem)
    · rw [find?_add] at hadded
      split at hadded
      · cases hadded
        exact .inl List.mem_cons_self
      · exact .inr hadded

theorem mem_of_find?_ofList {entities : List Entity} {id : EntityId} {e : Entity}
    (h : (ofList entities).find? id = some e) : e ∈ entities :=
  (mem_of_find?_addAll h).resolve_right (by simp)

/-- Entities that a lookup confirms, added to another index, answer first. -/
theorem find?_addAll {jx : Index} {entities : List Entity}
    (h : ∀ e ∈ entities, jx.find? e.id = some e) (ix : Index) (id : EntityId) :
    (ix.addAll entities).find? id =
      if id ∈ entities.map (·.id) then jx.find? id else ix.find? id := by
  induction entities generalizing ix with
  | nil => simp [addAll]
  | cons e rest ih =>
    rw [addAll, List.foldl_cons, ← addAll, ih fun x hx => h x (List.mem_cons_of_mem _ hx)]
    by_cases hmem : id ∈ rest.map (·.id)
    · rw [if_pos hmem, List.map_cons, if_pos (List.mem_cons_of_mem _ hmem)]
    · by_cases hid : e.id = id
      · subst hid
        simp [hmem, h e List.mem_cons_self]
      · simp [hmem, hid, Ne.symm hid]

/-- A map from ids to something about the entities under them. -/
theorem find?_ofList_toList {α : Type} (ix : Index) (f : Entity → α) (id : EntityId) :
    (OrderedMap.ofList (ix.toList.map fun e => (e.id, f e))).find? id = (ix.find? id).map f := by
  refine OrderedMap.find?_ofList_of_iff (fun id => (ix.find? id).map f) (fun key value => ?_) id
  simp only [List.mem_map, Prod.mk.injEq, Option.map_eq_some_iff]
  constructor
  · rintro ⟨e, he, rfl, rfl⟩
    exact ⟨e, mem_toList_iff.1 he, rfl⟩
  · rintro ⟨e, he, rfl⟩
    have hid := id_of_find? he
    exact ⟨e, mem_toList_iff.2 (hid ▸ he), hid, rfl⟩

theorem mem_ids_iff : id ∈ ix.ids ↔ ix.contains id = true := by
  simp only [ids, List.mem_flatMap, contains, List.any_eq_true, OrderedMap.mem_keys_iff]

theorem length_ids (ix : Index) : ix.ids.length = ix.size := by
  rw [ids, size]
  induction ix.partitions.values with
  | nil => rfl
  | cons part rest ih => simp [ih, OrderedMap.keys, OrderedMap.size]

theorem mem_map_id_toList_iff : id ∈ ix.toList.map (·.id) ↔ ix.contains id = true := by
  rw [contains_iff_find?, List.mem_map]
  constructor
  · rintro ⟨e, he, rfl⟩
    exact ⟨e, mem_toList_iff.1 he⟩
  · rintro ⟨e, he⟩
    have hid := id_of_find? he
    exact ⟨e, mem_toList_iff.2 (hid.symm ▸ he), hid⟩

/-- An index laid over another answers first, and the other answers for what was not removed. -/
theorem find?_removeAll_addAll (ix jx : Index) (ids : List EntityId) (id : EntityId) :
    ((ix.removeAll ids).addAll jx.toList).find? id =
      (jx.find? id).or (if id ∈ ids then none else ix.find? id) := by
  rw [find?_addAll (fun e he => mem_toList_iff.1 he), find?_removeAll]
  cases hj : jx.find? id with
  | none =>
    have : id ∉ jx.toList.map (·.id) := by
      rw [mem_map_id_toList_iff, contains_eq_isSome, hj]
      simp
    simp [this]
  | some e =>
    rw [if_pos (mem_map_id_toList_iff.2 (contains_iff_find?.2 ⟨e, hj⟩))]
    rfl

theorem findAllInto_eq (ix : Index) (q : Query) (found : List Entity) :
    ix.findAllInto q found = found ++
      ix.partitions.entries.flatMap fun p => if q.admits p.1 then pick q p.2 else [] := by
  rw [findAllInto]
  induction ix.partitions.entries generalizing found with
  | nil => simp
  | cons p rest ih =>
    rw [List.foldl_cons, ih, List.flatMap_cons]
    cases q.admits p.1 <;> simp

theorem findAll_eq_flatMap (ix : Index) (q : Query) :
    ix.findAll q =
      ix.partitions.entries.flatMap fun p => if q.admits p.1 then pick q p.2 else [] :=
  ix.findAllInto_eq q []

/-- A query finds the entities of an index that it admits and that pass its test, unless the test is
skipped. -/
theorem mem_findAll_iff {q : Query} :
    e ∈ ix.findAll q ↔
      ix.find? e.id = some e ∧ q.admits e.tag = true ∧ (q.matchesAll = true ∨ q.test e = true) := by
  have hpick : ∀ part : OrderedMap Entity, e ∈ pick q part ↔
      e ∈ part.values ∧ (q.matchesAll = true ∨ q.test e = true) := by
    intro part
    unfold pick
    split
    · simp_all
    · simp_all
  simp only [findAll_eq_flatMap, List.mem_flatMap, Prod.exists, find?_eq_some_iff]
  constructor
  · rintro ⟨tag, part, hp, he⟩
    split at he
    · rename_i hadmits
      obtain ⟨hmem, htest⟩ := (hpick part).1 he
      obtain ⟨⟨id, _⟩, hentry, rfl⟩ := List.mem_map.1 hmem
      have hpart := OrderedMap.mem_entries_iff.1 hp
      have hfound := OrderedMap.mem_entries_iff.1 hentry
      obtain ⟨rfl, rfl⟩ := ix.wellFormed.placed hpart hfound
      exact ⟨⟨part, hpart, hfound⟩, hadmits, htest⟩
    · simp at he
  · rintro ⟨⟨part, hp, he⟩, hadmits, htest⟩
    refine ⟨e.tag, part, OrderedMap.mem_entries_iff.2 hp, ?_⟩
    rw [if_pos hadmits]
    exact (hpick part).2 ⟨List.mem_map.2 ⟨_, OrderedMap.mem_entries_iff.2 he, rfl⟩, htest⟩

theorem isEmpty_iff : ix.isEmpty = true ↔ ∀ id, ix.find? id = none := by
  constructor
  · intro h id
    rw [← Option.not_isSome_iff_eq_none, ← contains_eq_isSome]
    intro hc
    obtain ⟨part, hpart, hin⟩ := List.any_eq_true.1 hc
    have hempty := List.all_eq_true.1 h part hpart
    obtain ⟨e, he⟩ := OrderedMap.contains_iff.1 hin
    have hmem := OrderedMap.mem_entries_iff.2 he
    rw [List.isEmpty_iff.1 hempty] at hmem
    cases hmem
  · intro h
    rw [show ix = empty from ext_find? h]
    rfl

/-! ## Lists of entities -/

/-- No id is listed twice. -/
theorem nodup_ids (ix : Index) : ix.ids.Nodup := by
  rw [ids, OrderedMap.values, List.flatMap_map]
  refine List.pairwise_flatMap.2 ⟨fun p _ => p.2.nodup_keys, ?_⟩
  refine ix.partitions.sorted.imp_of_mem fun {p p'} hp hp' hlt id hid id' hid' heq => ?_
  subst heq
  have htag := ix.wellFormed.unique (OrderedMap.mem_entries_iff.1 hp)
    (OrderedMap.mem_entries_iff.1 hp') (OrderedMap.mem_keys_iff.1 hid)
    (OrderedMap.mem_keys_iff.1 hid')
  rw [htag] at hlt
  exact String.lt_irrefl _ hlt

theorem map_id_toList (ix : Index) : ix.toList.map (·.id) = ix.ids := by
  have hpart : ∀ p ∈ ix.partitions.entries, p.2.values.map (·.id) = p.2.keys := by
    intro p hp
    rw [OrderedMap.values, OrderedMap.keys, List.map_map]
    refine List.map_congr_left fun entry hentry => ?_
    exact (ix.wellFormed.placed (OrderedMap.mem_entries_iff.1 hp)
      (OrderedMap.mem_entries_iff.1 hentry)).2
  rw [toList, ids, OrderedMap.values, List.map_flatMap, List.flatMap_map, List.flatMap_map,
    List.flatMap_def, List.flatMap_def, List.map_congr_left hpart]

theorem nodup_toList (ix : Index) : ix.toList.Nodup := by
  have h := ix.nodup_ids
  rw [← map_id_toList] at h
  exact (List.pairwise_map.1 h).imp fun hne heq => hne (congrArg Entity.id heq)

/-- An index lists its entities by type and then by id. -/
theorem pairwise_toList (ix : Index) :
    ix.toList.Pairwise fun a b => a.tag < b.tag ∨ a.tag = b.tag ∧ a.id < b.id := by
  rw [toList, OrderedMap.values, List.flatMap_map]
  refine List.pairwise_flatMap.2 ⟨fun part hpart => ?_, ?_⟩
  · have hplaced {entry : String × Entity} (hentry : entry ∈ part.2.entries) :
        entry.2.tag = part.1 ∧ entry.2.id = entry.1 :=
      ix.wellFormed.placed (OrderedMap.mem_entries_iff.1 hpart)
        (OrderedMap.mem_entries_iff.1 hentry)
    refine List.pairwise_map.2 (part.2.sorted.imp_of_mem fun {a b} ha hb hlt => .inr ?_)
    rw [(hplaced ha).1, (hplaced hb).1, (hplaced ha).2, (hplaced hb).2]
    exact ⟨rfl, hlt⟩
  · have htag {part : String × OrderedMap Entity} (hpart : part ∈ ix.partitions.entries)
        {e : Entity} (he : e ∈ part.2.values) : e.tag = part.1 := by
      obtain ⟨entry, hentry, rfl⟩ := List.mem_map.1 he
      exact (ix.wellFormed.placed (OrderedMap.mem_entries_iff.1 hpart)
        (OrderedMap.mem_entries_iff.1 hentry)).1
    refine ix.partitions.sorted.imp_of_mem fun {p q} hp hq hlt a ha b hb => .inl ?_
    rw [htag hp ha, htag hq hb]
    exact hlt

theorem pick_eq_filter (q : Query) (part : OrderedMap Entity) :
    pick q part = part.values.filter fun e => q.matchesAll || q.test e := by
  cases hall : q.matchesAll with
  | true => simp only [pick, hall, if_true, Bool.true_or, List.filter_eq_self.2 fun _ _ => rfl]
  | false => simp [pick, hall]

/-- Whether an entity is an answer to a query as an index understands it. -/
def takes (q : Query) (e : Entity) : Bool := q.admits e.tag && (q.matchesAll || q.test e)

/-- A query is answered in the order in which an index lists its entities. -/
theorem findAll_eq_filter (ix : Index) (q : Query) : ix.findAll q = ix.toList.filter (takes q) := by
  have hpart : ∀ p ∈ ix.partitions.entries,
      (if q.admits p.1 then pick q p.2 else []) = p.2.values.filter (takes q) := by
    intro p hp
    have htag : ∀ e ∈ p.2.values, takes q e = (q.admits p.1 && (q.matchesAll || q.test e)) := by
      intro e he
      obtain ⟨entry, hentry, rfl⟩ := List.mem_map.1 he
      rw [takes, (ix.wellFormed.placed (OrderedMap.mem_entries_iff.1 hp)
        (OrderedMap.mem_entries_iff.1 hentry)).1]
    rw [List.filter_congr htag, pick_eq_filter]
    cases q.admits p.1 <;> simp
  rw [toList, OrderedMap.values, List.flatMap_map, List.filter_flatMap, findAll_eq_flatMap,
    List.flatMap_def, List.flatMap_def, List.map_congr_left hpart]

/-- The first answer to a query is the first of all. -/
theorem findFirst?_eq_head? (ix : Index) (q : Query) : ix.findFirst? q = (ix.findAll q).head? := by
  rw [findFirst?, ← List.head?_filter, List.filter_flatMap, findAll_eq_flatMap]
  simp only [pick_eq_filter]
  induction ix.partitions.entries with
  | nil => rfl
  | cons p rest ih =>
    cases hp : q.admits p.1 with
    | true => simp [hp, ih]
    | false => simpa [hp] using ih

end Index

end EntityStore
