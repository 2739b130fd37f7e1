import EntityStore.Proofs.Repair.Dangling

/-!
# What a deletion comes to

In a store of records without dangling references, deleting some ids takes away those and, again and
again, the records with a reference into what is gone that must not dangle. The other records lose
the references into it. Repeated passes over the records reach exactly this: what they delete and
clear on the way is right (`Cascading`), and once nothing is left to mend it is all
(`Cascading.exact`).
-/

namespace EntityStore

open Repair

namespace Repair

/-- The ids that are gone once those asked for are deleted. -/
inductive Doomed (ix : Index) (asked : List EntityId) : EntityId → Prop
  | asked {id} : id ∈ asked → Doomed ix asked id
  | cascade {id type schema fields field target} :
      ix.find? id = some ⟨id, .record type schema fields⟩ →
      schema.references.find? field = some .delete →
      Properties.text? fields field = some target → Doomed ix asked target → Doomed ix asked id

/-- A record with a clearable reference to what is gone. -/
def Bereft (gone : EntityId → Prop) (e : Entity) : Prop :=
  ∃ type schema fields field, e.body = .record type schema fields ∧
    Lost gone schema.references.entries fields .clear field

/-- Two forms of a record, of which the second has lost clearable references to what is gone. -/
def Sheds (gone : EntityId → Prop) (e e' : Entity) : Prop :=
  ∃ id type schema fields fields', e = ⟨id, .record type schema fields⟩ ∧
    e' = ⟨id, .record type schema fields'⟩ ∧
    ∀ field, fields'.find? field = fields.find? field ∨
      Lost gone schema.references.entries fields .clear field ∧ fields'.find? field = some none

/-- Two forms of a record, of which the second has lost its clearable references to what is gone,
all of them, and nothing else. -/
def Cleared (gone : EntityId → Prop) (e e' : Entity) : Prop :=
  ∃ id type schema fields fields', e = ⟨id, .record type schema fields⟩ ∧
    e' = ⟨id, .record type schema fields'⟩ ∧
    ∀ field, (Lost gone schema.references.entries fields .clear field →
        fields'.find? field = some none) ∧
      (¬ Lost gone schema.references.entries fields .clear field →
        fields'.find? field = fields.find? field)

/-- Whether an entity is a record. -/
def isRecord (e : Entity) : Bool :=
  match e.body with
  | .record .. => true
  | _ => false

variable {gone : EntityId → Prop} {e e' : Entity}

theorem exists_of_isRecord (h : isRecord e = true) :
    ∃ id type schema fields, e = ⟨id, .record type schema fields⟩ := by
  obtain ⟨id, body⟩ := e
  cases body with
  | record type schema fields => exact ⟨id, type, schema, fields, rfl⟩
  | _ => simp [isRecord] at h

theorem tendsItself_of_isRecord (h : isRecord e = true) : tendsItself e = true := by
  obtain ⟨id, type, schema, fields, rfl⟩ := exists_of_isRecord h
  rfl

theorem Sheds.refl (h : isRecord e = true) : Sheds gone e e := by
  obtain ⟨id, type, schema, fields, rfl⟩ := exists_of_isRecord h
  exact ⟨id, type, schema, fields, fields, rfl, rfl, fun _ => .inl rfl⟩

/-- Shedding only ever takes texts away. -/
theorem Sheds.text? {id id' : EntityId} {type type' : TypeTag} {schema schema' : TypeSchema}
    {fields fields' : Properties}
    (h : Sheds gone ⟨id, .record type schema fields⟩ ⟨id', .record type' schema' fields'⟩) :
    schema' = schema ∧ ∀ {field target}, Properties.text? fields' field = some target →
      Properties.text? fields field = some target := by
  obtain ⟨_, _, _, _, _, he, he', hfields⟩ := h
  cases he
  cases he'
  refine ⟨rfl, fun {field target} ht => ?_⟩
  rcases hfields field with hsame | ⟨-, hnull⟩
  · rw [Properties.text?, hsame] at ht
    exact ht
  · simp [Properties.text?, hnull] at ht

theorem Cleared.unique {a b : Entity} (ha : Cleared gone e a) (hb : Cleared gone e b) : a = b := by
  obtain ⟨id, type, schema, fields, mended, rfl, rfl, hmended⟩ := ha
  obtain ⟨_, _, _, _, mended', he, rfl, hmended'⟩ := hb
  cases he
  have heq : mended = mended' := by
    refine OrderedMap.ext_find? fun field => ?_
    by_cases hlost : Lost gone schema.references.entries fields .clear field
    · rw [(hmended field).1 hlost, (hmended' field).1 hlost]
    · rw [(hmended field).2 hlost, (hmended' field).2 hlost]
  rw [heq]

/-- A mended record has shed references to what cannot be seen. -/
theorem sheds_of_mend {sees found : EntityId → Bool} {body : Body} (he : isRecord e = true)
    (h : verdict sees found e = .mend body) :
    Sheds (sees · = false) e ⟨e.id, body⟩ ∧ Bereft (sees · = false) e := by
  obtain ⟨id, type, schema, fields, rfl⟩ := exists_of_isRecord he
  simp only [verdict] at h
  split at h
  · cases h
  · rename_i mended hmend
    split at h
    · cases h
    · rename_i hne
      cases h
      have hfields := find?_mendFields schema.references.sorted hmend
      refine ⟨⟨id, type, schema, fields, mended, rfl, rfl, fun field => ?_⟩, ?_⟩
      · by_cases hlost : Lost (sees · = false) schema.references.entries fields .clear field
        · exact .inr ⟨hlost, (hfields field).1 hlost⟩
        · exact .inl ((hfields field).2.1 hlost)
      · refine Classical.byContradiction fun hnone => hne (OrderedMap.ext_find? fun field => ?_)
        refine (hfields field).2.1 fun hlost => hnone ?_
        exact ⟨type, schema, fields, field, rfl, hlost⟩

theorem exists_lost_of_remove {sees found : EntityId → Bool} (he : isRecord e = true)
    (h : verdict sees found e = .remove) :
    ∃ type schema fields field, e = ⟨e.id, .record type schema fields⟩ ∧
      Lost (sees · = false) schema.references.entries fields .delete field := by
  obtain ⟨id, type, schema, fields, rfl⟩ := exists_of_isRecord he
  simp only [verdict] at h
  split at h
  · rename_i hmend
    obtain ⟨field, hlost⟩ := exists_lost_of_mendFields hmend
    exact ⟨type, schema, fields, field, rfl, hlost⟩
  · split at h <;> cases h

/-- A record is never refused, and kept when all its references can be seen. -/
theorem verdict_record (sees found : EntityId → Bool) (he : isRecord e = true) :
    (∀ err, verdict sees found e ≠ .refuse err) ∧
      ((∀ ref ∈ e.references, sees ref = true) → verdict sees found e = .keep) := by
  obtain ⟨id, type, schema, fields, rfl⟩ := exists_of_isRecord he
  constructor
  · intro err h
    simp only [verdict] at h
    split at h
    · cases h
    · split at h <;> cases h
  · intro hsees
    have hmend : mendFields sees schema.references.entries fields = some fields := by
      refine mendFields_eq_self fun ref hmem target ht => hsees target ?_
      exact mem_recordReferences_iff.2 ⟨ref.1, ref.2, OrderedMap.mem_entries_iff.1 hmem, ht⟩
    simp [verdict, hmend]

end Repair

namespace Work

variable {run : HookRunner} {u w w' : Work} {ix : Index} {asked : List EntityId} {id : EntityId}
  {e : Entity} {result : Result Unit}

/-- What repeated passes preserve when some ids have been deleted: whatever is deleted is doomed,
and whatever is to be put is a committed record without some of its references to the doomed. -/
structure Cascading (ix : Index) (asked : List EntityId) (w : Work) : Prop where
  table : w.store.backend.table = ix
  struck : ∀ {id}, id ∈ asked → w.txn.deleted.contains id = true
  doomed : ∀ {id}, w.txn.deleted.contains id = true → Doomed ix asked id
  shed : ∀ {id e'}, w.txn.modified.find? id = some e' →
    ∃ e, ix.find? id = some e ∧ Sheds (Doomed ix asked) e e' ∧ Bereft (Doomed ix asked) e

/-- An index of records all of whose references it has. -/
structure Intact (ix : Index) : Prop where
  records : ∀ {id e}, ix.find? id = some e → isRecord e = true
  whole : ∀ {id ref}, ¬ ix.Dangles id ref

theorem Intact.contains (hix : Intact ix) (he : ix.find? id = some e) {ref : EntityId}
    (href : ref ∈ e.references) : ix.contains ref = true := by
  cases h : ix.contains ref with
  | true => rfl
  | false => exact absurd ⟨e, he, href, h⟩ hix.whole

namespace Cascading

theorem candidate (h : w.Cascading ix asked) (hix : Intact ix) {e' : Entity}
    (hcand : w.candidate? id = some e') :
    ∃ e, ix.find? id = some e ∧ Sheds (Doomed ix asked) e e' := by
  rcases Option.or_eq_some_iff.1 hcand with hf | ⟨-, hf⟩
  · obtain ⟨e, he, hshed, -⟩ := h.shed hf
    exact ⟨e, he, hshed⟩
  · rw [h.table] at hf
    exact ⟨e', hf, .refl (hix.records hf)⟩

theorem visible (h : w.Cascading ix asked) (hc : ix.contains id = true) :
    w.visible id = !w.txn.deleted.contains id := by
  have hb : w.store.backend.contains id = true := by rw [Backend.contains, h.table, hc]
  simp [Work.visible, hb]

theorem lost (h : w.Cascading ix asked) (hix : Intact ix) {type : TypeTag} {schema : TypeSchema}
    {fields fields' : Properties} {policy : DanglingPolicy} {field : String}
    (he : ix.find? id = some ⟨id, .record type schema fields⟩)
    (htext : ∀ {field target}, Properties.text? fields' field = some target →
      Properties.text? fields field = some target)
    (hlost : Lost (w.visible · = false) schema.references.entries fields' policy field) :
    Lost (Doomed ix asked) schema.references.entries fields policy field := by
  obtain ⟨hmem, target, ht, hgone⟩ := hlost
  have href : target ∈ Body.recordReferences schema fields :=
    mem_recordReferences_iff.2 ⟨field, policy, OrderedMap.mem_entries_iff.1 hmem, htext ht⟩
  rw [h.visible (hix.contains he href), Bool.not_eq_false'] at hgone
  exact ⟨hmem, target, htext ht, h.doomed hgone⟩

/-- A candidate that is mended has lost nothing but references to the doomed. -/
theorem mended (h : w.Cascading ix asked) (hix : Intact ix) {e' : Entity} {body : Body}
    (hcand : w.candidate? id = some e')
    (hv : verdict w.visible (w.found id) e' = .mend body) :
    ∃ e, ix.find? id = some e ∧ Sheds (Doomed ix asked) e ⟨id, body⟩ ∧
      Bereft (Doomed ix asked) e := by
  obtain ⟨e, he, hshed⟩ := h.candidate hix hcand
  have hform := hshed
  obtain ⟨i, type, schema, fields, fields', rfl, rfl, hfields⟩ := hform
  obtain rfl := Index.id_of_find? he
  obtain ⟨hshed', hbereft⟩ := sheds_of_mend rfl hv
  obtain ⟨_, _, _, _, fields'', he', hbody, hfields'⟩ := hshed'
  cases he'
  cases hbody
  refine ⟨_, he, ⟨i, type, schema, fields, fields'', rfl, rfl, fun field => ?_⟩, ?_⟩
  · rcases hfields' field with hsame | ⟨hlost, hnull⟩
    · rw [hsame]
      exact hfields field
    · exact .inr ⟨h.lost hix he hshed.text?.2 hlost, hnull⟩
  · obtain ⟨_, _, _, field, hbody, hlost⟩ := hbereft
    cases hbody
    exact ⟨type, schema, fields, field, rfl, h.lost hix he hshed.text?.2 hlost⟩

/-- A candidate that is removed is doomed. -/
theorem removed (h : w.Cascading ix asked) (hix : Intact ix) {e' : Entity}
    (hcand : w.candidate? id = some e')
    (hv : verdict w.visible (w.found id) e' = .remove) : Doomed ix asked id := by
  obtain ⟨e, he, hshed⟩ := h.candidate hix hcand
  have hform := hshed
  obtain ⟨i, type, schema, fields, fields', rfl, rfl, -⟩ := hform
  obtain rfl := Index.id_of_find? he
  obtain ⟨_, _, _, field, he', hlost⟩ := exists_lost_of_remove rfl hv
  cases he'
  obtain ⟨hmem, target, ht, hdoomed⟩ := h.lost hix he hshed.text?.2 hlost
  exact .cascade he (OrderedMap.mem_entries_iff.1 hmem) ht hdoomed

/-- Putting bereft records that shed their lost references keeps to the cascade. -/
theorem of_put (h : w.Cascading ix asked)
    (htable : w'.store.backend.table = w.store.backend.table)
    (hdeleted : w'.txn.deleted = w.txn.deleted)
    (hshed : ∀ {i x}, w'.txn.modified.find? i = some x →
      w.txn.modified.find? i = some x ∨
        ∃ e, ix.find? i = some e ∧ Sheds (Doomed ix asked) e x ∧ Bereft (Doomed ix asked) e) :
    w'.Cascading ix asked := by
  refine ⟨htable.trans h.table, ?_, ?_, fun {i x} hf => ?_⟩
  · rw [hdeleted]
    exact h.struck
  · rw [hdeleted]
    exact h.doomed
  · rcases hshed hf with hf | hshed
    · exact h.shed hf
    · exact hshed

/-- Taking away what is doomed keeps to the cascade. -/
theorem of_removed (h : w.Cascading ix asked)
    (htable : w'.store.backend.table = w.store.backend.table)
    (htxn : w'.txn = { w.txn.recordDeletion id with checking := none }) (hid : Doomed ix asked id) :
    w'.Cascading ix asked := by
  have hdeleted : ∀ i, w'.txn.deleted.contains i =
      (decide (id = i) || w.txn.deleted.contains i) := by
    intro i
    rw [htxn]
    exact OrderedMap.contains_add _ _ _
  refine ⟨htable.trans h.table, fun hi => ?_, fun {i} hi => ?_, fun {i x} hf => ?_⟩
  · rw [hdeleted, h.struck hi, Bool.or_true]
  · rw [hdeleted, Bool.or_eq_true, decide_eq_true_iff] at hi
    rcases hi with rfl | hi
    · exact hid
    · exact h.doomed hi
  · simp only [htxn, Transaction.recordDeletion, Index.find?_remove] at hf
    split at hf
    · cases hf
    · exact h.shed hf

/-- What a check preserves. One that fails has deleted the entity. -/
theorem check (h : w.Cascading ix asked) (hix : Intact ix) {e' : Entity}
    (hcand : w.candidate? id = some e') (hr : CheckResult w id e' (result, w')) :
    w'.Cascading ix asked ∧
      (∀ i, w.txn.deleted.contains i = true → w'.txn.deleted.contains i = true) ∧
      ∀ err, result = .error err → err = .integrityRestart ∧ w'.txn.deleted.contains id = true := by
  have hrecord : isRecord e' = true := by
    obtain ⟨e, -, i, type, schema, fields, fields', rfl, rfl, -⟩ := h.candidate hix hcand
    rfl
  cases hr with
  | kept hv htxn hquiet =>
    refine ⟨h.of_put hquiet.table (by rw [htxn]) fun hf => .inl ?_, ?_,
      fun err herr => by cases herr⟩
    · rw [htxn] at hf
      exact hf
    · rw [htxn]
      exact fun _ hi => hi
  | @mended body fields _ hv htxn hquiet =>
    refine ⟨h.of_put hquiet.table (by rw [htxn]) fun {i x} hf => ?_, ?_,
      fun err herr => by cases herr⟩
    · simp only [htxn, Index.find?_add] at hf
      split at hf
      · rename_i hid
        cases hf
        subst hid
        exact .inr (h.mended hix hcand hv)
      · exact .inl hf
    · rw [htxn]
      exact fun _ hi => hi
  | removed hv htxn hquiet =>
    have hadded : ∀ i, w'.txn.deleted.contains i =
        (decide (id = i) || w.txn.deleted.contains i) := by
      intro i
      rw [htxn]
      exact OrderedMap.contains_add _ _ _
    refine ⟨h.of_removed hquiet.table htxn (h.removed hix hcand hv), fun i hi => ?_,
      fun err herr => ?_⟩
    · rw [hadded, hi, Bool.or_true]
    · cases herr
      simp [hadded]
  -- records have no masters to miss
  | refused hv htxn hquiet => exact absurd hv ((verdict_record _ _ hrecord).1 _)

end Cascading

/-! ## When nothing is left to mend -/

/-- The references of everything that stays can be seen. -/
def Settled (w : Work) : Prop :=
  ∀ {id e}, w.candidate? id = some e → w.txn.deleted.contains id = false →
    ∀ ref ∈ e.references, w.visible ref = true

theorem Settled.not_deleted (hw : w.Settled) {type : TypeTag} {schema : TypeSchema}
    {fields : Properties} {policy : DanglingPolicy} {field : String} {target : EntityId}
    (hcand : w.candidate? id = some ⟨id, .record type schema fields⟩)
    (hd : w.txn.deleted.contains id = false)
    (hp : schema.references.find? field = some policy)
    (ht : Properties.text? fields field = some target) : w.txn.deleted.contains target = false := by
  have hvisible := hw hcand hd target (mem_recordReferences_iff.2 ⟨field, policy, hp, ht⟩)
  simp only [Work.visible, Bool.and_eq_true, Bool.not_eq_true'] at hvisible
  exact hvisible.1

namespace Cascading

theorem settled (h : w.Cascading ix asked) (hix : Intact ix) (hc : w.Clean) : w.Settled := by
  intro id e hcand hd ref href
  rcases Option.or_eq_some_iff.1 hcand with hf | ⟨hnone, hf⟩
  · exact hc.pending hf ref href
  · have hmod : w.txn.modified.contains id = false := by
      rw [Index.contains_eq_isSome, hnone, Option.isSome_none]
    have hfix := hf
    rw [h.table] at hfix
    rw [h.visible (hix.contains hfix href), hc.affected hf hd hmod ref href, Bool.not_false]

/-- Whatever is doomed is deleted. -/
theorem deleted_iff (h : w.Cascading ix asked) (hw : w.Settled) (id : EntityId) :
    w.txn.deleted.contains id = true ↔ Doomed ix asked id := by
  refine ⟨h.doomed, fun hdoomed => ?_⟩
  -- by induction on why the id is doomed; a record that is not deleted would still refer to its
  -- target, which the induction says is deleted, and a settled store has no such record
  induction hdoomed with
  | asked hmem => exact h.struck hmem
  | @cascade i type schema fields field target he hp ht _ ih =>
    cases hd : w.txn.deleted.contains i with
    | true => rfl
    | false =>
      -- the reference that must not dangle is still there
      have hcand : ∃ fields', w.candidate? i = some ⟨i, .record type schema fields'⟩ ∧
          Properties.text? fields' field = some target := by
        cases hf : w.txn.modified.find? i with
        | none => exact ⟨fields, by simp [candidate?, hf, h.table, he], ht⟩
        | some x =>
          obtain ⟨e, he', hshed, -⟩ := h.shed hf
          rw [he] at he'
          cases he'
          obtain ⟨_, _, _, _, fields', hform, rfl, hfields⟩ := hshed
          cases hform
          refine ⟨fields', by simp [candidate?, hf], ?_⟩
          rcases hfields field with hsame | ⟨⟨hmem, -⟩, -⟩
          · rw [Properties.text?, hsame]
            exact ht
          · rw [OrderedMap.mem_entries_iff, hp] at hmem
            cases hmem
      obtain ⟨fields', hcand, ht'⟩ := hcand
      rw [hw.not_deleted hcand hd hp ht'] at ih
      cases ih

theorem not_deleted_iff (h : w.Cascading ix asked) (hw : w.Settled) (id : EntityId) :
    w.txn.deleted.contains id = false ↔ ¬ Doomed ix asked id := by
  rw [← h.deleted_iff hw, Bool.not_eq_true]

/-- A record that is to be put has lost all its clearable references to the doomed. -/
theorem cleared (hs : w.Sound) (h : w.Cascading ix asked) (hw : w.Settled) {e' : Entity}
    (hf : w.txn.modified.find? id = some e') :
    ∃ e, ix.find? id = some e ∧ Bereft (Doomed ix asked) e ∧ Cleared (Doomed ix asked) e e' := by
  obtain ⟨e, he, hshed, hbereft⟩ := h.shed hf
  have hform := hshed
  obtain ⟨i, type, schema, fields, fields', rfl, rfl, hfields⟩ := hform
  obtain rfl := Index.id_of_find? he
  refine ⟨_, he, hbereft, i, type, schema, fields, fields', rfl, rfl, fun field => ⟨?_, ?_⟩⟩
  · rintro ⟨hmem, target, ht, hdoomed⟩
    rcases hfields field with hsame | ⟨-, hnull⟩
    · -- otherwise the reference would be one that cannot be seen
      have hcand : w.candidate? i = some ⟨i, .record type schema fields'⟩ := by
        simp [candidate?, hf]
      have ht' : Properties.text? fields' field = some target := by
        rw [Properties.text?, hsame]
        exact ht
      have hgone := hw.not_deleted hcand (hs.alive (Index.contains_iff_find?.2 ⟨_, hf⟩))
        (OrderedMap.mem_entries_iff.1 hmem) ht'
      rw [h.not_deleted_iff hw] at hgone
      exact absurd hdoomed hgone
    · exact hnull
  · intro hlost
    exact (hfields field).resolve_right fun hright => hlost hright.1

/-- A record that stays and is bereft is to be put. -/
theorem exists_modified (h : w.Cascading ix asked) (hw : w.Settled) (he : ix.find? id = some e)
    (hstays : ¬ Doomed ix asked id) (hbereft : Bereft (Doomed ix asked) e) :
    ∃ e', w.txn.modified.find? id = some e' := by
  obtain ⟨type, schema, fields, field, hbody, hmem, target, ht, hdoomed⟩ := hbereft
  cases hf : w.txn.modified.find? id with
  | some e' => exact ⟨e', rfl⟩
  | none =>
    obtain ⟨i, body⟩ := e
    cases hbody
    obtain rfl := Index.id_of_find? he
    have hcand : w.candidate? i = some ⟨i, .record type schema fields⟩ := by
      simp [candidate?, hf, h.table, he]
    have hgone := hw.not_deleted hcand ((h.not_deleted_iff hw _).2 hstays)
      (OrderedMap.mem_entries_iff.1 hmem) ht
    rw [h.not_deleted_iff hw] at hgone
    exact absurd hdoomed hgone

/-- What is to be put are the records that stay and are bereft, without what they have lost. -/
theorem modified_iff (hs : w.Sound) (h : w.Cascading ix asked) (hw : w.Settled) (e' : Entity) :
    w.txn.modified.find? e'.id = some e' ↔
      ∃ e, ix.find? e'.id = some e ∧ ¬ Doomed ix asked e'.id ∧ Bereft (Doomed ix asked) e ∧
        Cleared (Doomed ix asked) e e' := by
  constructor
  · intro hf
    obtain ⟨e, he, hbereft, hcleared⟩ := h.cleared hs hw hf
    have hd := hs.alive (Index.contains_iff_find?.2 ⟨_, hf⟩)
    exact ⟨e, he, (h.not_deleted_iff hw _).1 hd, hbereft, hcleared⟩
  · rintro ⟨e, he, hstays, hbereft, hcleared⟩
    obtain ⟨x, hf⟩ := h.exists_modified hw he hstays hbereft
    obtain ⟨_, he', -, hcleared'⟩ := h.cleared hs hw hf
    rw [he] at he'
    cases he'
    rw [hf, hcleared'.unique hcleared]

end Cascading

end Work

end EntityStore
