import EntityStore.Proofs.Session.Replica
import EntityStore.Snapshot.Loaded
import Mathlib.Data.List.Forall2

/-!
# What is loaded from a snapshot

A snapshot whose property maps all have a type and an id loads. Its table then shows, for every id,
the last map with it, and every entity is a record of one of the snapshot's types. Written back, a
table is listed by type and then by id.

Main statements: `Snapshot.load_labelled`, `LoadedStore.pairwise_toSnapshot`.
-/

namespace EntityStore

/-! ## Types -/

namespace Schema

theorem find?_intern (s : Schema) (tag other : TypeTag) :
    (s.intern tag).find? other =
      (s.find? other).or (if tag = other then some TypeSchema.empty else none) := by
  unfold intern
  split
  · rename_i hknown
    obtain ⟨type, htype⟩ := OrderedMap.contains_iff.1 hknown
    split
    · rename_i heq
      rw [← heq, htype, Option.some_or]
    · rw [Option.or_none]
  · rename_i hnew
    rw [OrderedMap.find?_insert]
    split
    · rename_i heq
      rw [OrderedMap.contains, Bool.not_eq_true, Option.isSome_eq_false_iff,
        Option.isNone_iff_eq_none] at hnew
      rw [← heq, hnew, Option.none_or]
    · rw [Option.or_none]

theorem find?_internAll (s : Schema) (tags : List TypeTag) (tag : TypeTag) :
    (s.internAll tags).find? tag =
      (s.find? tag).or (if tag ∈ tags then some TypeSchema.empty else none) := by
  induction tags generalizing s with
  | nil => simp [internAll]
  | cons other rest ih =>
    rw [internAll, List.foldl_cons, ← internAll, ih, find?_intern, Option.or_assoc]
    congr 1
    by_cases heq : other = tag
    · simp [heq]
    · simp [heq, Ne.symm heq]

end Schema

/-- A record of one of the types of a schema, as property maps are received. -/
structure Entity.Charted (types : Schema) (e : Entity) : Prop where
  regular : e.Regular
  typed : ∃ type fields, e.body = .record e.tag type fields ∧ types.find? e.tag = some type

/-! ## Property maps brought to life -/

/-- What becomes of a property map: a record of a known type which shows exactly the map. -/
structure Properties.Stands (types : Schema) (p : Properties) (e : Entity) : Prop where
  id : p.id? = some e.id
  shows : e.properties = p
  charted : e.Charted types

variable {types : Schema} {p : Properties} {tag : TypeTag} {id : EntityId} {type : TypeSchema}

theorem Properties.stands_record (htag : p.typeTag? = some tag) (hid : p.id? = some id)
    (htype : types.find? tag = some type) :
    p.Stands types ⟨id, .record tag type p.unreserved⟩ := by
  refine ⟨hid, ?_, .of_free rfl (p.contains_unreserved (by decide))
    (p.contains_unreserved (by decide)), type, _, rfl, htype⟩
  replace htag : p.find? typeKey = some (some tag) := Option.join_eq_some_iff.1 htag
  replace hid : p.find? idKey = some (some id) := Option.join_eq_some_iff.1 hid
  refine OrderedMap.ext_find? fun field => ?_
  show (OrderedMap.merge (withId (withType .empty tag) id) p.unreserved).find? field = _
  rw [OrderedMap.find?_merge, unreserved, OrderedMap.find?_filter, withId, withType,
    OrderedMap.find?_insert, OrderedMap.find?_insert]
  by_cases hidKey : idKey = field
  · subst hidKey
    simp [hid, isReserved]
  · by_cases htypeKey : typeKey = field
    · subst htypeKey
      simp [htag, isReserved, hidKey]
    · cases p.find? field <;> simp [isReserved, hidKey, htypeKey, Ne.symm hidKey, Ne.symm htypeKey]

theorem Registry.materialize_ofSchema (htag : p.typeTag? = some tag) (hid : p.id? = some id)
    (htype : types.find? tag = some type) :
    (ofSchema types).materialize p = .ok ⟨id, .record tag type p.unreserved⟩ := by
  have hcreate : (ofSchema types).create tag id = .ok (Entity.newRecord tag type id) := by
    rw [create, ofSchema, OrderedMap.find?_mapEntries, htype]
    rfl
  have hupdate : (Entity.newRecord tag type id).updated p =
      .ok ⟨id, .record tag type p.unreserved⟩ := by
    have hown : p.id? = some (Entity.newRecord tag type id).id := hid
    rw [Entity.updated, Entity.update, if_pos hown]
    rfl
  simp only [materialize, htag, hid, hcreate]
  exact hupdate

/-! ## Loading -/

namespace Snapshot

/-- The property maps by id. Of two with one id the later counts. -/
def byId (s : Snapshot) : OrderedMap Properties :=
  OrderedMap.ofList (s.entities.filterMap fun p => p.id?.map fun id => (id, p))

/-- Every property map has a type and an id. -/
def Labelled (s : Snapshot) : Prop :=
  ∀ p ∈ s.entities, p.typeTag?.isSome = true ∧ p.id?.isSome = true

instance (s : Snapshot) : Decidable s.Labelled :=
  inferInstanceAs (Decidable (∀ p ∈ s.entities, p.typeTag?.isSome = true ∧ p.id?.isSome = true))

variable {s : Snapshot}

theorem find?_types (h : s.types.find? tag = some type) :
    s.schema.find? tag = some type ∨ type = TypeSchema.empty := by
  rw [types, Schema.find?_internAll, Option.or_eq_some_iff] at h
  rcases h with h | ⟨-, h⟩
  · exact .inl h
  · split at h
    · exact .inr (Option.some.inj h).symm
    · cases h

theorem exists_type (hp : p ∈ s.entities) (htag : p.typeTag? = some tag) :
    ∃ type, s.types.find? tag = some type := by
  have hmem : tag ∈ s.entities.filterMap Properties.typeTag? :=
    List.mem_filterMap.2 ⟨p, hp, htag⟩
  rw [types, Schema.find?_internAll, if_pos hmem]
  cases s.schema.find? tag with
  | none => exact ⟨_, rfl⟩
  | some type => exact ⟨type, rfl⟩

theorem exists_byId (hp : p ∈ s.entities) (hid : p.id? = some id) :
    ∃ m, s.byId.find? id = some m := by
  have hmem : (id, p) ∈ s.entities.filterMap fun p => p.id?.map fun id => (id, p) :=
    List.mem_filterMap.2 ⟨p, hp, by rw [hid]; rfl⟩
  rw [byId, OrderedMap.find?_ofList, ← Option.isSome_iff_exists]
  exact OrderedMap.valueAt?_isSome_of_mem (List.mem_reverse.2 hmem)

theorem exists_received (h : s.Labelled) (hp : p ∈ s.entities) :
    ∃ e, (Memory.ofEntities []).receiveOne (Registry.ofSchema s.types) p = .ok e ∧
      p.Stands s.types e := by
  obtain ⟨tag, htag⟩ := Option.isSome_iff_exists.1 (h p hp).1
  obtain ⟨id, hid⟩ := Option.isSome_iff_exists.1 (h p hp).2
  obtain ⟨type, htype⟩ := exists_type hp htag
  refine ⟨_, ?_, Properties.stands_record htag hid htype⟩
  rw [Memory.receiveOne, hid]
  exact Registry.materialize_ofSchema htag hid htype

end Snapshot

/-- A list on each of whose items a step succeeds is gone through. -/
theorem exists_mapM_eq_ok {α β ε : Type} {step : α → Except ε β} {R : α → β → Prop} {l : List α}
    (h : ∀ a ∈ l, ∃ b, step a = .ok b ∧ R a b) :
    ∃ results, l.mapM step = .ok results ∧ List.Forall₂ R l results := by
  induction l with
  | nil => exact ⟨[], rfl, .nil⟩
  | cons a rest ih =>
    obtain ⟨b, hb, hab⟩ := h a List.mem_cons_self
    obtain ⟨results, hresults, hrest⟩ := ih fun x hx => h x (List.mem_cons_of_mem _ hx)
    refine ⟨b :: results, ?_, .cons hab hrest⟩
    rw [List.mapM_cons, hb, hresults]
    rfl

/-- Adding what property maps stand for lays the maps over those that a table shows. -/
theorem Index.snapshots_addAll {maps : List Properties} {entities : List Entity}
    (h : List.Forall₂ (Properties.Stands types) maps entities) (ix : Index) :
    (ix.addAll entities).snapshots =
      (maps.filterMap fun p => p.id?.map fun id => (id, p)).foldl (fun m e => m.insert e.1 e.2)
        ix.snapshots := by
  induction h generalizing ix with
  | nil => rfl
  | @cons p e maps entities hstands _ ih =>
    have hadd : (ix.add e).snapshots = ix.snapshots.insert e.id p := by
      refine OrderedMap.ext_find? fun id => ?_
      rw [OrderedMap.find?_insert, find?_snapshots, find?_snapshots, find?_add]
      split
      · exact congrArg some hstands.shows
      · rfl
    rw [addAll, List.foldl_cons, ← addAll, ih, hadd]
    simp [hstands.id]

/-- What stands for property maps joins records of known types. -/
theorem Index.charted_addAll {maps : List Properties} {entities : List Entity}
    (h : List.Forall₂ (Properties.Stands types) maps entities) {ix : Index}
    (hix : ∀ id e, ix.find? id = some e → e.Charted types) :
    ∀ id e, (ix.addAll entities).find? id = some e → e.Charted types := by
  induction h generalizing ix with
  | nil => exact hix
  | cons hstands _ ih =>
    refine ih fun id e he => ?_
    rw [find?_add] at he
    split at he
    · cases he
      exact hstands.charted
    · exact hix id e he

/-- A labelled snapshot loads, and the last map of every id is what the table shows under it. -/
theorem Snapshot.load_labelled {s : Snapshot} (h : s.Labelled) (config : Config) :
    ∃ memory : Memory,
      s.load config = .ok ⟨Store.new config ⟨memory, .plain⟩, s.types, s.schema⟩ ∧
      memory.table.snapshots = s.byId ∧
      ∀ id e, memory.table.find? id = some e → e.Charted s.types := by
  obtain ⟨received, hreceived, hstands⟩ := exists_mapM_eq_ok fun p hp => exists_received h hp
  refine ⟨{ Memory.ofEntities [] with table := Index.empty.addAll received }, ?_, ?_, ?_⟩
  · rw [load, Memory.receive, hreceived]
    rfl
  · exact Index.snapshots_addAll hstands Index.empty
  · exact Index.charted_addAll hstands fun _ _ hfound => by cases hfound

/-! ## Writing back -/

/-- One property map comes before another: by type, then by id. -/
def Properties.Before (p q : Properties) : Prop :=
  ∃ tag id tag' id', p.typeTag? = some tag ∧ p.id? = some id ∧ q.typeTag? = some tag' ∧
    q.id? = some id' ∧ (tag < tag' ∨ tag = tag' ∧ id < id')

theorem Properties.labelBefore_some (a b : String) :
    labelBefore (some a) (some b) = decide (a < b) := rfl

theorem Properties.Before.notAfter {p q : Properties} (h : p.Before q) : p.notAfter q = true := by
  obtain ⟨tag, id, tag', id', htag, hid, htag', hid', hlt | ⟨rfl, hlt⟩⟩ := h
  · rw [Properties.notAfter, htag, htag', labelBefore_some, decide_eq_true hlt, Bool.true_or]
  · rw [Properties.notAfter, htag, htag', hid, hid', labelBefore_some id',
      decide_eq_false (String.lt_asymm hlt), decide_eq_true rfl, Bool.not_false, Bool.and_true,
      Bool.or_true]

theorem Entity.Regular.labels {e : Entity} (h : e.Regular) :
    e.properties.typeTag? = some e.tag ∧ e.properties.id? = some e.id :=
  ⟨Option.join_eq_some_iff.2 h.find?_type, Option.join_eq_some_iff.2 h.find?_id⟩

namespace LoadedStore

variable {l : LoadedStore}

theorem mem_toSnapshot : p ∈ l.toSnapshot.entities ↔ ∃ id, l.table.snapshots.find? id = some p := by
  simp only [toSnapshot, (sortBy_perm _).mem_iff, List.mem_map, Index.mem_toList_iff,
    Index.find?_snapshots, Option.map_eq_some_iff]
  constructor
  · rintro ⟨e, he, rfl⟩
    exact ⟨e.id, e, he, rfl⟩
  · rintro ⟨id, e, he, rfl⟩
    exact ⟨e, Index.id_of_find? he ▸ he, rfl⟩

/-- A table lists its entities by type and then by id, so that sorting leaves them as they are. -/
theorem pairwise_toSnapshot (h : ∀ id e, l.table.find? id = some e → e.Regular) :
    l.toSnapshot.entities.Pairwise Properties.Before := by
  have hlisted : (l.table.toList.map Entity.properties).Pairwise Properties.Before := by
    refine List.pairwise_map.2 (l.table.pairwise_toList.imp_of_mem fun {a b} ha hb hlt => ?_)
    obtain ⟨htag, hid⟩ := (h _ _ (Index.mem_toList_iff.1 ha)).labels
    obtain ⟨htag', hid'⟩ := (h _ _ (Index.mem_toList_iff.1 hb)).labels
    exact ⟨a.tag, a.id, b.tag, b.id, htag, hid, htag', hid', hlt⟩
  have hsorted : l.toSnapshot.entities = l.table.toList.map Entity.properties :=
    sortBy_eq_self (hlisted.imp Properties.Before.notAfter)
  rwa [hsorted]

end LoadedStore

end EntityStore
