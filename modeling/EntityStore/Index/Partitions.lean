import EntityStore.OrderedMap.Lemmas
import EntityStore.Query

/-!
# Partitions of entities

Entities by type tag and, within a type, by id. Partitions are well formed when each entity stands
in the partition of its own type and under its own id, no id stands in two partitions and no
partition is empty. Main statements: taking an id away, putting an entity in its place once room is
made for it, and changing an entity where it stands keep partitions well formed.
-/

namespace EntityStore

abbrev Partitions := OrderedMap (OrderedMap Entity)

namespace Partitions

/-- What makes partitions an index. -/
structure WellFormed (ps : Partitions) : Prop where
  /-- No partition is empty. -/
  inhabited : ∀ {tag part}, ps.find? tag = some part → part.isEmpty = false
  /-- Each entity stands under its own type and id. -/
  placed : ∀ {tag part id e}, ps.find? tag = some part → part.find? id = some e →
    e.tag = tag ∧ e.id = id
  /-- No id stands in two partitions. -/
  unique : ∀ {tag part tag' part' id}, ps.find? tag = some part → ps.find? tag' = some part' →
    part.contains id = true → part'.contains id = true → tag = tag'

def tagOf? (ps : Partitions) (id : EntityId) : Option TypeTag :=
  (ps.entries.find? fun p => p.2.contains id).map (·.1)

/-- The partitions without one id of one of them, which goes away when it was its last. -/
def dropFrom (ps : Partitions) (tag : TypeTag) (id : EntityId) : Partitions :=
  match ps.find? tag with
  | none => ps
  | some part =>
    if (part.erase id).isEmpty then ps.erase tag else ps.insert tag (part.erase id)

def remove (ps : Partitions) (id : EntityId) : Partitions :=
  match tagOf? ps id with
  | none => ps
  | some tag => dropFrom ps tag id

/-- What removing an id takes out. -/
def removed? (ps : Partitions) (id : EntityId) : Option Entity :=
  (tagOf? ps id).bind fun tag => (ps.find? tag).bind fun part => part.find? id

/-- The partitions with an entity put in its place, which must not stand under another type. -/
def place (ps : Partitions) (e : Entity) : Partitions :=
  ps.insert e.tag (((ps.find? e.tag).getD OrderedMap.empty).insert e.id e)

/-- The partitions without the id of an entity if it stands under another type. -/
def makeRoom (ps : Partitions) (e : Entity) : Partitions :=
  match tagOf? ps e.id with
  | none => ps
  | some tag => if tag = e.tag then ps else dropFrom ps tag e.id

/-- The partitions with the entity under an id changed where it stands. -/
def edit (ps : Partitions) (id : EntityId) (change : Entity.Edit) : Partitions :=
  ps.mapEntries fun _ part => part.mapEntries fun key e => if key = id then change.apply e else e

theorem tagOf?_eq_none {ps : Partitions} {id : EntityId} (h : tagOf? ps id = none)
    {tag : TypeTag} {part : OrderedMap Entity} (hp : ps.find? tag = some part) :
    part.contains id = false := by
  have := List.find?_eq_none.1 (Option.map_eq_none_iff.1 h) _ (OrderedMap.mem_entries_iff.2 hp)
  simpa using this

theorem tagOf?_eq_some {ps : Partitions} {id : EntityId} {tag : TypeTag}
    (h : tagOf? ps id = some tag) :
    ∃ part, ps.find? tag = some part ∧ part.contains id = true := by
  obtain ⟨⟨t, part⟩, hp, rfl⟩ := Option.map_eq_some_iff.1 h
  exact ⟨part, OrderedMap.mem_entries_iff.1 (List.mem_of_find?_eq_some hp),
    by simpa using List.find?_some hp⟩

/-- A partition after a drop is one from before, without the dropped id under the tag. -/
theorem find?_dropFrom {ps : Partitions} {tag t : TypeTag} {id : EntityId}
    {part : OrderedMap Entity} (h : (dropFrom ps tag id).find? t = some part) :
    ∃ before, ps.find? t = some before ∧
      (t ≠ tag ∧ part = before ∨ t = tag ∧ part = before.erase id ∧ part.isEmpty = false) := by
  unfold dropFrom at h
  split at h
  · rename_i hnone
    refine ⟨part, h, .inl ⟨fun heq => ?_, rfl⟩⟩
    rw [heq, hnone] at h
    cases h
  · rename_i before hb
    split at h
    · rw [OrderedMap.find?_erase] at h
      split at h
      · cases h
      · rename_i hne
        exact ⟨part, h, .inl ⟨fun heq => hne heq.symm, rfl⟩⟩
    · rename_i hfull
      rw [OrderedMap.find?_insert] at h
      split at h
      · rename_i heq
        cases h
        exact ⟨before, heq ▸ hb, .inr ⟨heq.symm, rfl, by simpa using hfull⟩⟩
      · rename_i hne
        exact ⟨part, h, .inl ⟨fun heq => hne heq.symm, rfl⟩⟩

theorem contains_of_contains_erase {m : OrderedMap Entity} {id other : EntityId}
    (h : (m.erase id).contains other = true) : m.contains other = true := by
  obtain ⟨e, he⟩ := OrderedMap.contains_iff.1 h
  exact OrderedMap.contains_iff.2 ⟨e, (OrderedMap.find?_erase_eq_some.1 he).2⟩

theorem WellFormed.dropFrom {ps : Partitions} (h : ps.WellFormed) (tag : TypeTag)
    (id : EntityId) : (ps.dropFrom tag id).WellFormed where
  inhabited hp := by
    obtain ⟨before, hb, ⟨_, rfl⟩ | ⟨_, rfl, hfull⟩⟩ := find?_dropFrom hp
    · exact h.inhabited hb
    · exact hfull
  placed hp he := by
    obtain ⟨before, hb, ⟨_, rfl⟩ | ⟨_, rfl, _⟩⟩ := find?_dropFrom hp
    · exact h.placed hb he
    · exact h.placed hb (OrderedMap.find?_erase_eq_some.1 he).2
  unique {_ part _ part' other} hp hp' hc hc' := by
    obtain ⟨before, hb, hcase⟩ := find?_dropFrom hp
    obtain ⟨before', hb', hcase'⟩ := find?_dropFrom hp'
    have hbc : before.contains other = true := by
      rcases hcase with ⟨_, rfl⟩ | ⟨_, rfl, _⟩
      · exact hc
      · exact contains_of_contains_erase hc
    have hbc' : before'.contains other = true := by
      rcases hcase' with ⟨_, rfl⟩ | ⟨_, rfl, _⟩
      · exact hc'
      · exact contains_of_contains_erase hc'
    exact h.unique hb hb' hbc hbc'

theorem WellFormed.remove {ps : Partitions} (h : ps.WellFormed) (id : EntityId) :
    (ps.remove id).WellFormed := by
  unfold Partitions.remove
  split
  · exact h
  · exact h.dropFrom _ _

theorem WellFormed.makeRoom {ps : Partitions} (h : ps.WellFormed) (e : Entity) :
    (ps.makeRoom e).WellFormed := by
  unfold Partitions.makeRoom
  split
  · exact h
  · split
    · exact h
    · exact h.dropFrom _ _

theorem eq_tag_of_makeRoom {ps : Partitions} (h : ps.WellFormed) {e : Entity} {tag : TypeTag}
    {part : OrderedMap Entity} (hp : (ps.makeRoom e).find? tag = some part)
    (hc : part.contains e.id = true) : tag = e.tag := by
  unfold makeRoom at hp
  split at hp
  · rename_i hnone
    rw [tagOf?_eq_none hnone hp] at hc
    cases hc
  · rename_i t ht
    obtain ⟨old, ho, hoc⟩ := tagOf?_eq_some ht
    split at hp
    · rename_i heq
      exact (h.unique hp ho hc hoc).trans heq
    · obtain ⟨before, hb, ⟨hne, rfl⟩ | ⟨_, rfl, _⟩⟩ := find?_dropFrom hp
      · exact absurd (h.unique hb ho hc hoc) hne
      · obtain ⟨x, hx⟩ := OrderedMap.contains_iff.1 hc
        simp at hx

theorem WellFormed.place {ps : Partitions} (h : ps.WellFormed) {e : Entity}
    (hroom : ∀ {tag part}, ps.find? tag = some part → part.contains e.id = true → tag = e.tag) :
    (ps.place e).WellFormed where
  inhabited hp := by
    rw [Partitions.place, OrderedMap.find?_insert] at hp
    split at hp
    · cases hp
      exact OrderedMap.isEmpty_insert _ _ _
    · exact h.inhabited hp
  placed hp he := by
    rw [Partitions.place, OrderedMap.find?_insert] at hp
    split at hp
    · rename_i htag
      cases hp
      rw [OrderedMap.find?_insert] at he
      split at he
      · rename_i hid
        cases he
        exact ⟨htag, hid⟩
      · cases hold : ps.find? e.tag with
        | none => simp [hold] at he
        | some old =>
          rw [hold] at he
          obtain ⟨h₁, h₂⟩ := h.placed hold he
          exact ⟨h₁.trans htag, h₂⟩
    · exact h.placed hp he
  unique {tag part tag' part' id} hp hp' hc hc' := by
    have back : ∀ {t p}, (ps.place e).find? t = some p → p.contains id = true →
        (id = e.id → t = e.tag) ∧
          (id ≠ e.id → ∃ before, ps.find? t = some before ∧ before.contains id = true) := by
      intro t p hp hc
      rw [Partitions.place, OrderedMap.find?_insert] at hp
      split at hp
      · rename_i htag
        cases hp
        refine ⟨fun _ => htag.symm, fun hne => ?_⟩
        obtain ⟨x, hx⟩ := OrderedMap.contains_iff.1 hc
        rw [OrderedMap.find?_insert, if_neg (fun h => hne h.symm)] at hx
        cases hold : ps.find? e.tag with
        | none => simp [hold] at hx
        | some old =>
          rw [hold] at hx
          exact ⟨old, htag ▸ hold, OrderedMap.contains_iff.2 ⟨x, hx⟩⟩
      · exact ⟨fun hid => hroom hp (hid ▸ hc), fun _ => ⟨p, hp, hc⟩⟩
    by_cases hid : id = e.id
    · exact ((back hp hc).1 hid).trans ((back hp' hc').1 hid).symm
    · obtain ⟨_, hb, hbc⟩ := (back hp hc).2 hid
      obtain ⟨_, hb', hbc'⟩ := (back hp' hc').2 hid
      exact h.unique hb hb' hbc hbc'

theorem find?_edit {ps : Partitions} {id : EntityId} {change : Entity.Edit} {tag : TypeTag}
    {part : OrderedMap Entity} (h : (ps.edit id change).find? tag = some part) :
    ∃ before, ps.find? tag = some before ∧ part.isEmpty = before.isEmpty ∧
      ∀ other, part.find? other =
        (before.find? other).map fun e => if other = id then change.apply e else e := by
  rw [edit, OrderedMap.find?_mapEntries] at h
  obtain ⟨before, hb, rfl⟩ := Option.map_eq_some_iff.1 h
  exact ⟨before, hb, by simp [OrderedMap.isEmpty, OrderedMap.mapEntries],
    OrderedMap.find?_mapEntries _ before⟩

theorem WellFormed.edit {ps : Partitions} (h : ps.WellFormed) (id : EntityId)
    (change : Entity.Edit) : (ps.edit id change).WellFormed where
  inhabited hp := by
    obtain ⟨before, hb, hempty, -⟩ := find?_edit hp
    exact hempty.trans (h.inhabited hb)
  placed {_ _ other _} hp he := by
    obtain ⟨before, hb, -, hfind⟩ := find?_edit hp
    rw [hfind] at he
    obtain ⟨old, hold, rfl⟩ := Option.map_eq_some_iff.1 he
    obtain ⟨htag, hid⟩ := h.placed hb hold
    by_cases heq : other = id
    · simp [heq, change.tag_apply, change.id_apply, htag, hid]
    · simp [heq, htag, hid]
  unique hp hp' hc hc' := by
    obtain ⟨before, hb, -, hfind⟩ := find?_edit hp
    obtain ⟨before', hb', -, hfind'⟩ := find?_edit hp'
    rw [OrderedMap.contains, hfind, Option.isSome_map] at hc
    rw [OrderedMap.contains, hfind', Option.isSome_map] at hc'
    exact h.unique hb hb' hc hc'

theorem WellFormed.empty : WellFormed OrderedMap.empty where
  inhabited hp := by simp at hp
  placed hp _ := by simp at hp
  unique hp _ _ _ := by simp at hp

end Partitions

end EntityStore
