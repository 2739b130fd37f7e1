import EntityStore.Proofs.Feed.History
import EntityStore.Proofs.Session.Convergence
import EntityStore.Proofs.Session.Publication

/-!
# Replicas

A replica holds a property map for every committed entity. It follows the feed: of every change set
it removes the deleted ids and merges each update into the map of its id. It stays in step with the
committed table as long as each entity put shows what is committed under its id with the published
fields on top (`Work.inStep_iff`). That is so for clients who change single fields of fresh copies,
unless the commit of one changes an entity that another is still to put.
-/

namespace EntityStore

open Repair

/-- The full property maps of the entities of an index, by id. -/
def Index.snapshots (ix : Index) : OrderedMap Properties :=
  OrderedMap.ofList (ix.toList.map fun e => (e.id, e.properties))

theorem Index.find?_snapshots (ix : Index) (id : EntityId) :
    ix.snapshots.find? id = (ix.find? id).map Entity.properties :=
  ix.find?_ofList_toList Entity.properties id

namespace ChangeSet

/-- What a replica makes of a change set: the deleted ids are removed, and each update is merged
into the map of its id. -/
def applyTo (c : ChangeSet) (replica : OrderedMap Properties) : OrderedMap Properties :=
  let kept := replica.filter fun id _ => !c.deleted.contains id
  kept.merge (c.updates.mapEntries fun id p => ((kept.find? id).getD .empty).merge p)

/-- A replica that has followed change sets in order. -/
def replay (changes : List ChangeSet) (replica : OrderedMap Properties) : OrderedMap Properties :=
  changes.foldl (fun r c => c.applyTo r) replica

theorem replay_append (changes later : List ChangeSet) (replica : OrderedMap Properties) :
    replay (changes ++ later) replica = replay later (replay changes replica) :=
  List.foldl_append ..

theorem find?_applyTo (c : ChangeSet) (replica : OrderedMap Properties) (id : EntityId) :
    (c.applyTo replica).find? id =
      let held := if c.deleted.contains id then none else replica.find? id
      match c.updates.find? id with
      | some p => some ((held.getD .empty).merge p)
      | none => held := by
  have hkept : (replica.filter fun id _ => !c.deleted.contains id).find? id =
      if c.deleted.contains id then none else replica.find? id := by
    rw [OrderedMap.find?_filter]
    cases replica.find? id <;> cases c.deleted.contains id <;> simp
  rw [applyTo, OrderedMap.find?_merge, OrderedMap.find?_mapEntries, hkept]
  cases c.updates.find? id <;> rfl

end ChangeSet

namespace Work

variable {w : Work} {s : Store}

theorem find?_applyTo_changeSet (hw : w.txn.Apart) (id : EntityId) :
    (w.txn.changeSet.applyTo w.store.backend.table.snapshots).find? id =
      ((w.txn.modified.find? id).map fun e =>
        ((w.store.backend.table.snapshots.find? id).getD .empty).merge (w.txn.update e)).or
      (if w.txn.deleted.contains id then none else w.store.backend.table.snapshots.find? id) := by
  rw [ChangeSet.find?_applyTo, Transaction.find?_changeSet]
  cases hput : w.txn.modified.find? id with
  | none => rfl
  | some e =>
    have halive : w.txn.changeSet.deleted.contains id = false :=
      hw.alive (Index.contains_iff_find?.2 ⟨e, hput⟩)
    simp only [halive, Option.map_some, Bool.false_eq_true, if_false, Option.some_or]

theorem find?_snapshots_of_delivers (h : w.store.Delivers w.txn.batch w.txn.changeSet s)
    (id : EntityId) :
    s.backend.table.snapshots.find? id = ((w.txn.modified.find? id).map Entity.properties).or
      (if w.txn.deleted.contains id then none else w.store.backend.table.snapshots.find? id) := by
  rw [Index.find?_snapshots, Index.find?_snapshots, find?_of_delivers h, overlay]
  cases w.txn.modified.find? id with
  | some e => rfl
  | none => cases w.txn.deleted.contains id <;> rfl

/-- A replica that was in step with the committed table is in step with it after a batch exactly if
every entity put shows what was committed with the published fields on top. -/
theorem inStep_iff (hw : w.txn.Apart) (h : w.store.Delivers w.txn.batch w.txn.changeSet s) :
    w.txn.changeSet.applyTo w.store.backend.table.snapshots = s.backend.table.snapshots ↔
      ∀ id e, w.txn.modified.find? id = some e → e.properties =
        ((w.store.backend.table.snapshots.find? id).getD .empty).merge (w.txn.update e) := by
  constructor
  · intro heq id e hput
    have hid := find?_snapshots_of_delivers h id
    rw [← heq, find?_applyTo_changeSet hw, hput] at hid
    exact (Option.some.inj hid).symm
  · intro hshows
    refine OrderedMap.ext_find? fun id => ?_
    rw [find?_applyTo_changeSet hw, find?_snapshots_of_delivers h]
    cases hput : w.txn.modified.find? id with
    | some e => simp only [Option.map_some, hshows id e hput]
    | none => rfl

end Work

/-- A replica that began with some property maps and has followed the feed is in step with the
committed table. The feed itself tells which change sets it has published as long as none has had to
make room (`Feed.Published.eq_history`), and their number and the last of them ever after. -/
def Store.InStep (replica : OrderedMap Properties) (s : Store) : Prop :=
  ∃ changes, s.feed.Published changes ∧
    ChangeSet.replay changes replica = s.backend.table.snapshots

/-! ## What is recorded -/

/-- A record none of whose fields stands in the place of its type or its id. -/
structure Entity.Regular (e : Entity) : Prop where
  record : isRecord e = true
  shows : ∀ field, ¬ e.Hides field

/-- An entity shows what is committed under its id, with the recorded fields on top. -/
def Overlaid (b : Option Entity) (e : Entity) (d : Properties) : Prop :=
  ∃ c, b = some c ∧ e.properties = c.properties.merge d

theorem merge_insert {α : Type} (m overlay : OrderedMap α) (key : String) (value : α) :
    m.merge (overlay.insert key value) = (m.merge overlay).insert key value := by
  refine OrderedMap.ext_find? fun other => ?_
  rw [OrderedMap.find?_merge, OrderedMap.find?_insert, OrderedMap.find?_insert,
    OrderedMap.find?_merge]
  split <;> rfl

theorem Entity.Regular.of_free {e : Entity} (h : isRecord e = true)
    (htype : e.free.contains Properties.typeKey = false)
    (hid : e.free.contains Properties.idKey = false) : e.Regular := by
  refine ⟨h, fun field hhides => ?_⟩
  obtain ⟨hreserved, hfree⟩ := hhides
  rw [Properties.isReserved, Bool.or_eq_true, decide_eq_true_iff, decide_eq_true_iff] at hreserved
  rcases hreserved with rfl | rfl
  · exact absurd (htype.symm.trans hfree) (by simp)
  · exact absurd (hid.symm.trans hfree) (by simp)

theorem Entity.Regular.drops {e e' : Entity} {field : String} (h : e.Regular)
    (hdrop : Drops e field e') : e'.Regular := by
  refine ⟨hdrop.isRecord.trans h.record, fun other hhides => h.shows other ⟨hhides.1, ?_⟩⟩
  have hfree := hhides.2
  cases hdrop with
  | customer => exact absurd h.record (by simp [isRecord])
  | @field id type schema fields field target hpolicy htext =>
    simp only [Entity.free, OrderedMap.contains_insert, Bool.or_eq_true, decide_eq_true_eq]
      at hfree ⊢
    rcases hfree with rfl | hfree
    · rw [OrderedMap.contains, Option.isSome_iff_exists]
      cases hfind : fields.find? field with
      | some value => exact ⟨value, rfl⟩
      | none => simp [Properties.text?, hfind] at htext
    · exact hfree

theorem Entity.Regular.find?_id {e : Entity} (h : e.Regular) :
    e.properties.find? Properties.idKey = some (some e.id) :=
  Entity.find?_idKey (h.shows _)

theorem Entity.Regular.find?_type {e : Entity} (h : e.Regular) :
    e.properties.find? Properties.typeKey = some (some e.tag) :=
  Entity.find?_typeKey (h.shows _)

theorem overlaid_forId {e : Entity} (h : e.Regular) :
    Overlaid (some e) e (Properties.forId e.id) := by
  refine ⟨e, rfl, OrderedMap.ext_find? fun other => ?_⟩
  rw [OrderedMap.find?_merge, Properties.forId, OrderedMap.find?_insert]
  split
  · rename_i hid
    rw [← hid, h.find?_id]
    rfl
  · rfl

theorem overlaid_edit {b : Option Entity} {e e' : Entity} {d : Properties} {field : String}
    {value : PropertyValue} (hshows : e'.properties = e.properties.insert field value)
    (h : Overlaid b e d) : Overlaid b e' (d.insert field value) := by
  obtain ⟨c, hc, hmerged⟩ := h
  exact ⟨c, hc, by rw [hshows, hmerged, merge_insert]⟩

theorem accounts_overlaid : Work.Accounts Entity.Regular Overlaid False where
  tends h := tendsItself_of_isRecord h.record
  drops h hdrop := h.drops hdrop
  fresh h := overlaid_forId h
  noted _ hdrop h := overlaid_edit hdrop.properties h
  muted h := h.elim

/-- What is known of a working set keeps a replica in step. -/
theorem Work.Kept.inStep {w : Work} (hw : w.Kept Entity.Regular Overlaid Callback.Barred)
    {s : Store} (h : w.store.Delivers w.txn.batch w.txn.changeSet s) :
    w.txn.changeSet.applyTo w.store.backend.table.snapshots = s.backend.table.snapshots := by
  refine (Work.inStep_iff hw.apart h).2 fun id e hput => ?_
  obtain ⟨d, hd, he, c, hc, hmerged⟩ := hw.pending hput
  obtain rfl := Index.id_of_find? hput
  -- the type and the id that are published on top are those that the entity shows anyway
  have hupdate : w.txn.update e = (d.withType e.tag).withId e.id := by
    rw [Transaction.update, hd, Option.getD_some]
  rw [Index.find?_snapshots, hc, Option.map_some, Option.getD_some, hupdate, Properties.withId,
    Properties.withType, merge_insert, merge_insert, ← hmerged]
  rw [OrderedMap.insert_self he.find?_type, OrderedMap.insert_self he.find?_id]

/-! ## What clients do -/

/-- Clients set single fields of fresh copies and record exactly that, or delete. Nothing that they
record is ignored. -/
def Operation.EditsFields (w : Work) (op : Operation) : Prop :=
  w.txn.ignoreModifications = false ∧
    match op with
    | .persist _ | .afterCommit _ => False
    | .modified e field value => Properties.isReserved field = false ∧
        ∃ c, w.get e.id = .ok c ∧ e = c.setField field value
    | .deleteEntity e => isRecord e = true
    | _ => True

theorem Entity.Regular.setField {e : Entity} (h : e.Regular) {field : String}
    (hfield : Properties.isReserved field = false) (value : PropertyValue) :
    (e.setField field value).Regular ∧ (e.setField field value).id = e.id ∧
      (e.setField field value).properties = e.properties.insert field value := by
  obtain ⟨id, type, schema, fields, rfl⟩ := exists_of_isRecord h.record
  refine ⟨⟨rfl, fun other hhides => h.shows other ⟨hhides.1, ?_⟩⟩, rfl, merge_insert _ _ _ _⟩
  have hfree : (fields.insert field value).contains other = true := hhides.2
  rw [OrderedMap.contains_insert, Bool.or_eq_true, decide_eq_true_iff] at hfree
  rcases hfree with rfl | hfree
  · exact absurd (hhides.1.symm.trans hfield) (by simp)
  · exact hfree

theorem Operation.respects_editsFields :
    Operation.Respects Entity.Regular Overlaid Callback.Barred False
      fun w op => op.EditsFields w where
  fits {w op} hw h := by
    obtain ⟨-, h⟩ := h
    cases op with
    | persist e => exact h.elim
    | modified e field value =>
      obtain ⟨hfield, c, hget, rfl⟩ := h
      obtain ⟨hregular, -, hshows⟩ := (hw.of_get hget).setField hfield value
      refine ⟨hregular, fun b c' hget' hoverlaid => ?_⟩
      cases hget.symm.trans hget'
      exact overlaid_edit hshows hoverlaid
    | deleteEntity e => exact tendsItself_of_isRecord h
    | afterCommit c => exact h
    | _ => trivial
  mutes h hmutes := absurd (h.1.symm.trans hmutes.2.2) (by simp)
  delete h := ⟨h.1, trivial⟩

/-! ## Runs -/

theorem Store.InStep.of_feed {replica : OrderedMap Properties} {s s' : Store}
    (h : s.InStep replica) (htable : s'.backend.table = s.backend.table)
    (hlatest : s'.feed.latest = s.feed.latest) (hhistory : s'.feed.history = s.feed.history)
    (hmax : s'.feed.maxHistory = s.feed.maxHistory) : s'.InStep replica := by
  obtain ⟨changes, hpublished, hreplay⟩ := h
  exact ⟨changes, ⟨hpublished.numbers, hlatest.trans hpublished.latest,
    by rw [hhistory, hmax, hpublished.history]⟩, by rw [hreplay, htable]⟩

theorem Store.InStep.carries (replica : OrderedMap Properties) :
    Store.Carries Entity.Regular Overlaid Callback.Barred (Store.InStep replica) := by
  refine .of_unmoved (fun h hunmoved => ?_) fun {w s'} hw h hdelivers => ?_
  · exact h.of_feed hunmoved.table (by rw [hunmoved.feed]) (by rw [hunmoved.feed])
      (by rw [hunmoved.feed])
  · obtain ⟨changes, hpublished, hreplay⟩ := h
    refine ⟨_, hdelivers.feed ▸ hpublished.emit w.txn.changeSet, ?_⟩
    rw [ChangeSet.replay_append, hreplay]
    exact hw.inStep hdelivers

namespace Session

variable {run : HookRunner} {s : Session} {m : Move}

/-- Moves that concern the feed only publish nothing. -/
theorem published_of_listens (run : HookRunner) (s : Session) (hm : m.Listens) :
    (s.move run m).store.backend.table = s.store.backend.table ∧
      (s.move run m).store.feed.latest = s.store.feed.latest ∧
      (s.move run m).store.feed.history = s.store.feed.history ∧
      (s.move run m).store.feed.maxHistory = s.store.feed.maxHistory := by
  cases m with
  | subscribe listener =>
    simp only [move, Listeners.subscribe]
    cases s.listeners.find? listener <;> exact ⟨rfl, rfl, rfl, rfl⟩
  | unsubscribe listener =>
    simp only [move, Listeners.unsubscribe]
    cases s.listeners.find? listener <;> exact ⟨rfl, rfl, rfl, rfl⟩
  | drain listener =>
    simp only [move, Listeners.drain]
    cases s.listeners.find? listener <;> exact ⟨rfl, rfl, rfl, rfl⟩
  | _ => exact hm.elim

/-- A replica that begins with the snapshots of a store of records and follows the feed is in step
with the committed table at any time, if clients change single fields of fresh copies and no commit
changes an entity that another transaction is still to put. -/
theorem replica_stays_in_step (registry : Registry) (scripts : Scripts) (level : Nat)
    (config : Config) (backend : Backend)
    (hregular : ∀ id e, backend.table.find? id = some e → e.Regular) :
    let run := (Script.hooks registry scripts).runner (level + 1)
    ∀ s, Reach run (fun s m => m.Obeys run Operation.EditsFields s ∧ ¬ s.Crosses run m)
        (start (Store.new config backend)) s →
      s.store.InStep backend.table.snapshots := by
  intro run s hreach
  have hrun : Honours run := honours_script registry scripts level
  have hcarries := Store.InStep.carries backend.table.snapshots
  have hmay := Operation.respects_editsFields
  refine (hreach.invariant
    (I := fun u => u.Kept Entity.Regular Overlaid Callback.Barred ∧
      u.store.InStep backend.table.snapshots)
    ⟨kept_start fun h => hregular _ _ h, [], Feed.published_new _, rfl⟩
    fun u n hu hn => ⟨?_, ?_⟩).2
  · exact hu.1.move accounts_overlaid hcarries hmay hrun hu.2 hn.1 (.inr hn.2)
  · by_cases hlistens : n.Listens
    · obtain ⟨htable, hlatest, hhistory, hmax⟩ := published_of_listens run u hlistens
      exact hu.2.of_feed htable hlatest hhistory hmax
    · exact (hu.1.store_move accounts_overlaid hcarries hmay hrun hu.2 hn.1).2 hlistens

theorem not_crosses_of_all (h : (s.move run m).transactions.entries.all (fun held =>
      held.2.modified.ids.all fun id => decide ((s.move run m).store.backend.table.find? id =
        s.store.backend.table.find? id)) = true) : ¬ s.Crosses run m := by
  rintro ⟨key, t, id, ht, hput, hne⟩
  have hids := List.all_eq_true.1 h (key, t) (OrderedMap.mem_entries_iff.2 ht)
  exact hne (of_decide_eq_true (List.all_eq_true.1 hids id (Index.mem_ids_iff.2 hput)))

theorem obeys_of_heeds {may : Work → Operation → Prop} {key : String} {op : Operation}
    (hop : ∀ w : Work, w.txn.ignoreModifications = false → may w op)
    (h : (s.transactions.find? key).all (!·.ignoreModifications) = true) :
    (Move.perform key op).Obeys run may s :=
  Move.obeys_of_all _ h fun t ht => hop ⟨s.store, t⟩ (by simpa using ht)

theorem obeys_modified {key field : String} {value : PropertyValue} {c : Entity} (id : EntityId)
    (hfield : Properties.isReserved field = false) (hc : s.store.backend.get id = .ok c)
    (hid : (c.setField field value).id = id)
    (h : (s.transactions.find? key).all (fun t => !t.ignoreModifications &&
      (!t.deleted.contains id && (t.modified.find? id).isNone)) = true) :
    (Move.perform key (.modified (c.setField field value) field value)).Obeys run
      Operation.EditsFields s := by
  refine Move.obeys_of_all _ h fun t ht => ?_
  simp only [Bool.and_eq_true, Bool.not_eq_true', Option.isNone_iff_eq_none] at ht
  obtain ⟨hheeds, hkept, hfresh⟩ := ht
  refine ⟨hheeds, hfield, c, ?_, rfl⟩
  simp only [hid, Work.get, hkept, hfresh, hc, Bool.false_eq_true, if_false]

def guest : Entity := post "guest" [("room", some "1"), ("key", some "1")]

/-- A store of records, one of which refers to another. -/
def hotel : Store :=
  .new .standard (.plain [post "head" [("above", none)], post "clerk" [("beside", some "head")],
    guest])

/-- One client deletes the head, while another has changed the guest. -/
def rehouse : List Move :=
  [.begin "t" "dismisses", .begin "u" "rehouses",
    .perform "u" (.modified (guest.setField "room" (some "2")) "room" (some "2")),
    .perform "t" (.delete "head"), .perform "t" .commit, .perform "u" .commit]

/-- The replica hears of the deletion, of the reference that was cleared and of the new room. -/
theorem rehousing_is_followed :
    let s := (start hotel).moves plainRun rehouse
    s.store.InStep hotel.backend.table.snapshots ∧
      s.store.feed.history.map (fun c => (c.deleted.keys, c.updates.keys)) =
        [(["head"], ["clerk"]), ([], ["guest"])] := by
  intro s
  have hregular : ∀ id e, hotel.backend.table.find? id = some e → e.Regular := by
    have hall : hotel.backend.table.toList.all (fun e => isRecord e &&
        (!e.free.contains Properties.typeKey && !e.free.contains Properties.idKey)) = true := by
      decide +kernel
    intro id e he
    have h := Index.all_toList_iff.1 hall id e he
    simp only [Bool.and_eq_true, Bool.not_eq_true'] at h
    exact .of_free h.1 h.2.1 h.2.2
  refine ⟨replica_stays_in_step .builtIn (fun _ _ => []) 0 .standard hotel.backend hregular s
    (reach_moves ⟨⟨trivial, ?_⟩, ⟨trivial, ?_⟩, ⟨?_, ?_⟩, ⟨?_, ?_⟩, ⟨?_, ?_⟩, ⟨?_, ?_⟩, trivial⟩),
    by decide +kernel⟩
  any_goals exact not_crosses_of_all (by decide +kernel)
  · exact obeys_modified "guest" (by decide) rfl rfl (by decide +kernel)
  all_goals exact obeys_of_heeds (fun _ h => ⟨h, trivial⟩) (by decide +kernel)

/-- Two clients have changed different fields of the guest before the first of them commits. -/
def collide : List Move :=
  [.begin "t" "rehouses", .begin "u" "replaces the key",
    .perform "t" (.modified (guest.setField "room" (some "2")) "room" (some "2")),
    .perform "u" (.modified (guest.setField "key" (some "2")) "key" (some "2")),
    .perform "t" .commit, .perform "u" .commit]

/-- The second commit puts the old room back, and publishes nothing of it. -/
theorem colliding_commits_lose_step :
    let s := (start hotel).moves plainRun collide
    Reach plainRun (fun s m => m.Obeys plainRun Operation.EditsFields s) (start hotel) s ∧
      ¬ s.store.InStep hotel.backend.table.snapshots := by
  intro s
  refine ⟨reach_moves ⟨trivial, trivial, ?_, ?_, ?_, ?_, trivial⟩, ?_⟩
  · exact obeys_modified "guest" (by decide) rfl rfl (by decide +kernel)
  · exact obeys_modified "guest" (by decide) rfl rfl (by decide +kernel)
  · exact obeys_of_heeds (fun _ h => ⟨h, trivial⟩) (by decide +kernel)
  · exact obeys_of_heeds (fun _ h => ⟨h, trivial⟩) (by decide +kernel)
  · rintro ⟨changes, hpublished, hreplay⟩
    obtain rfl := hpublished.eq_history (by decide +kernel)
    have hlost : (ChangeSet.replay s.store.feed.history hotel.backend.table.snapshots).find?
        "guest" ≠ s.store.backend.table.snapshots.find? "guest" := by decide +kernel
    exact hlost (by rw [hreplay])

end Session

end EntityStore
