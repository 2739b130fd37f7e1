import EntityStore.Proofs.Session.Bookkeeping
import EntityStore.Proofs.Session.Overlay
import EntityStore.Proofs.Transaction.Order

/-!
# What is published

Clients put entities, delete ids and record changes of fields that their copies show. Then every
field that is published of an entity is as the entity shows it that was written, however the moves
of clients interleave and whatever is repaired on the way. Only a transaction that repairs
references while it ignores modifications may publish a reference that the entity written has lost.
-/

namespace EntityStore

open Repair

/-! ## Entities as they show themselves -/

namespace Properties

theorem contains_unreserved (p : Properties) {field : String}
    (h : isReserved field = true) : p.unreserved.contains field = false := by
  rw [OrderedMap.contains, unreserved, OrderedMap.find?_filter]
  cases p.find? field <;> simp [h]

theorem find?_unreserved (p : Properties) {field : String}
    (h : isReserved field = false) : p.unreserved.find? field = p.find? field := by
  rw [unreserved, OrderedMap.find?_filter]
  cases p.find? field <;> simp [h]

end Properties

namespace Entity

/-- The fields of an entity that may have any name. -/
def free (e : Entity) : Properties :=
  match e.body with
  | .record _ _ fields => fields
  | .probe fields => fields
  | _ => .empty

/-- A free field of the entity stands in the place of its type or its id. -/
def Hides (e : Entity) (field : String) : Prop :=
  Properties.isReserved field = true ∧ e.free.contains field = true

variable {e : Entity} {field : String}

/-- An entity shows its own type and id, unless a free field stands in their place. -/
theorem find?_properties (hfield : Properties.isReserved field = true) (h : ¬ e.Hides field) :
    e.properties.find? field =
      ((Properties.withType .empty e.tag).withId e.id).find? field := by
  have hne : ∀ name, Properties.isReserved name = false → name ≠ field := by
    rintro name hname rfl
    rw [hfield] at hname
    cases hname
  have hfree : e.free.find? field = none := by
    simpa [Hides, hfield, OrderedMap.contains] using h
  obtain ⟨id, body⟩ := e
  rw [properties, storeInto]
  cases body with
  | customer name => simp [Body.storeInto, hne "name" (by decide)]
  | order target number =>
    simp [Body.storeInto, hne "customerId" (by decide), hne "number" (by decide)]
  | orderLine target product =>
    simp [Body.storeInto, hne "orderId" (by decide), hne "product" (by decide)]
  | attachment target => simp [Body.storeInto, hne "orderId" (by decide)]
  | node target => simp [Body.storeInto, hne "parent" (by decide)]
  | rival target counter =>
    simp [Body.storeInto, hne "partner" (by decide), hne "counter" (by decide)]
  | record type schema fields =>
    change fields.find? field = none at hfree
    rw [Body.storeInto, OrderedMap.find?_merge, hfree, Option.none_or]
  | probe fields =>
    change fields.find? field = none at hfree
    rw [Body.storeInto, OrderedMap.find?_merge, hfree, Option.none_or]

theorem find?_typeKey (h : ¬ e.Hides Properties.typeKey) :
    e.properties.find? Properties.typeKey = some (some e.tag) := by
  rw [find?_properties rfl h]
  simp [Properties.withId, Properties.withType, Properties.typeKey, Properties.idKey]

theorem find?_idKey (h : ¬ e.Hides Properties.idKey) :
    e.properties.find? Properties.idKey = some (some e.id) := by
  rw [find?_properties rfl h]
  simp [Properties.withId]

/-- What may be published of a field: what the entity shows, or anything where the field is hidden.
Where repairs may go unrecorded, it may also be a reference that the entity has lost. -/
def Backs (mute : Prop) (e : Entity) (field : String) (value : PropertyValue) : Prop :=
  e.properties.find? field = some value ∨ e.Hides field ∨
    mute ∧ value ≠ none ∧ e.properties.find? field = some none

end Entity

/-- Every field that a change set publishes of an entity is backed by the entity that the batch
puts. -/
def ChangeSet.TrueOf (mute : Prop) (b : Batch) (c : ChangeSet) : Prop :=
  ∀ id p, c.updates.find? id = some p → ∃ e ∈ b.modified, e.id = id ∧
    ∀ field value, p.find? field = some value → e.Backs mute field value

/-! ## What is recorded -/

variable {mute : Prop}

/-- What is recorded of an entity besides its type and its id is as it shows it. -/
def Recorded (mute : Prop) (_ : Option Entity) (e : Entity) (d : Properties) : Prop :=
  ∀ field value, Properties.isReserved field = false → d.find? field = some value →
    e.properties.find? field = some value ∨
      mute ∧ value ≠ none ∧ e.properties.find? field = some none

theorem recorded_edit {b : Option Entity} {e e' : Entity} {d : Properties} {field : String}
    {value : PropertyValue} (hshows : e'.properties = e.properties.insert field value)
    (h : Recorded mute b e d) : Recorded mute b e' (d.insert field value) := by
  intro other recorded hother hd
  rw [hshows]
  by_cases hfield : field = other
  · simp only [OrderedMap.find?_insert, hfield, if_true] at hd ⊢
    exact .inl hd
  · simp only [OrderedMap.find?_insert, hfield, if_false] at hd ⊢
    exact h other recorded hother hd

theorem recorded_forId (b : Option Entity) (e : Entity) (id : EntityId) :
    Recorded mute b e (Properties.forId id) := by
  intro field value hfield hd
  rw [Properties.forId, OrderedMap.find?_insert] at hd
  split at hd
  · rename_i heq
    subst heq
    cases hfield
  · cases hd

theorem accounts_recorded : Work.Accounts (tendsItself · = true) (Recorded mute) mute where
  tends h := h
  drops _ hdrop := hdrop.tendsItself
  fresh _ := recorded_forId _ _ _
  noted _ hdrop h := recorded_edit hdrop.properties h
  muted hmute {b e field e' d} _ hdrop h := by
    intro other value hother hd
    have hother' := h other value hother hd
    rw [hdrop.properties]
    by_cases hfield : field = other
    · cases value with
      | none => exact .inl (by simp [hfield])
      | some text => exact .inr ⟨hmute, by simp, by simp [hfield]⟩
    · simpa [hfield] using hother'

/-- What is known of a working set makes true what is published of it. -/
theorem Work.Kept.trueOf {w : Work}
    (hw : w.Kept (tendsItself · = true) (Recorded mute) Callback.Barred) :
    w.txn.changeSet.TrueOf mute w.txn.batch := by
  intro id p hp
  rw [Transaction.find?_changeSet, Option.map_eq_some_iff] at hp
  obtain ⟨e, he, rfl⟩ := hp
  obtain ⟨d, hd, -, hrecorded⟩ := hw.pending he
  obtain rfl := Index.id_of_find? he
  refine ⟨e, Index.mem_toList_iff.2 he, rfl, fun field value hfield => ?_⟩
  by_cases hhides : e.Hides field
  · exact .inr (.inl hhides)
  · have hupdate : w.txn.update e = (d.withType e.tag).withId e.id := by
      rw [Transaction.update, hd, Option.getD_some]
    rw [hupdate] at hfield
    cases hreserved : Properties.isReserved field with
    | true =>
      refine .inl ?_
      rw [Entity.find?_properties hreserved hhides, ← hfield]
      simp only [Properties.isReserved, Bool.or_eq_true, decide_eq_true_eq] at hreserved
      rcases hreserved with rfl | rfl <;>
        simp [Properties.withType, Properties.withId, Properties.typeKey, Properties.idKey]
    | false =>
      have hnot : Properties.typeKey ≠ field ∧ Properties.idKey ≠ field := by
        constructor <;> rintro rfl <;> cases hreserved
      simp only [Properties.withType, Properties.withId, OrderedMap.find?_insert, hnot.1, hnot.2,
        if_false] at hfield
      exact (hrecorded field value hreserved hfield).imp_right .inr

/-! ## What clients do -/

/-- Clients put entities that look after themselves, delete, and record a change of a field with the
value that their copy shows. A copy of an entity that the transaction is already to put differs from
that one in nothing else. -/
def Operation.Truthful (w : Work) : Operation → Prop
  | .persist e | .deleteEntity e => tendsItself e = true
  | .modified e field value => tendsItself e = true ∧ e.properties.find? field = some value ∧
      ∀ x, w.txn.modified.find? e.id = some x → e.properties = x.properties.insert field value
  | .afterCommit _ => False
  | _ => True

theorem Operation.respects_truthful (mute : Prop) :
    Operation.Respects (tendsItself · = true) (Recorded mute) Callback.Barred mute
      fun w op => op.Truthful w ∧ (op.Mutes w → mute) where
  fits {w op} hw h := by
    cases op with
    | persist e => exact ⟨h.1, fun _ _ _ _ hd => .inl hd⟩
    | modified e field value =>
      obtain ⟨⟨he, hvalue, hcopy⟩, -⟩ := h
      refine ⟨he, fun b c hget hrecorded => ?_⟩
      cases hput : w.txn.modified.find? e.id with
      | some x =>
        have hcand := Work.candidate?_of_get hget
        rw [Work.candidate?, hput, Option.some_or] at hcand
        obtain rfl : x = c := Option.some.inj hcand
        exact recorded_edit (hcopy x hput) hrecorded
      | none =>
        rw [Work.recorded, hw.unrecorded hput, Option.getD_none]
        intro other recorded hother hd
        rw [OrderedMap.find?_insert] at hd
        split at hd
        · rename_i hfield
          subst hfield
          cases hd
          exact .inl hvalue
        · exact recorded_forId b e e.id other recorded hother hd
    | deleteEntity e => exact h.1
    | afterCommit c => exact h.1
    | _ => trivial
  mutes h := h.2
  delete h := ⟨trivial, h.2⟩

/-! ## Runs -/

/-- Between two stores, batches were applied and published, truthfully. -/
def Store.Publishes (mute : Prop) (s s' : Store) : Prop :=
  ∃ written : List (Batch × ChangeSet),
    s'.backend.memory.applied = s.backend.memory.applied ++ written.map (·.1) ∧
    s'.feed = s.feed.emitAll (written.map (·.2)) ∧
    ∀ pair ∈ written, pair.2.TrueOf mute pair.1

theorem Store.Publishes.carries (mute : Prop) (s : Store) :
    Store.Carries (tendsItself · = true) (Recorded mute) Callback.Barred (s.Publishes mute) := by
  refine .of_unmoved (fun {t t'} ⟨written, happlied, hfeed, htrue⟩ h => ?_) fun {w t'} hw h hs => ?_
  · exact ⟨written, h.applied.trans happlied, h.feed.trans hfeed, htrue⟩
  · obtain ⟨written, happlied, hfeed, htrue⟩ := h
    refine ⟨written ++ [(w.txn.batch, w.txn.changeSet)], ?_, ?_, fun pair hpair => ?_⟩
    · rw [hs.applied, happlied, List.map_append, List.append_assoc]
      rfl
    · rw [hs.feed, hfeed, List.map_append, Feed.emitAll_append]
      rfl
    · rcases List.mem_append.1 hpair with hpair | hpair
      · exact htrue pair hpair
      · rw [List.mem_singleton.1 hpair]
        exact hw.trueOf

namespace Session

/-- Whatever flags transactions set, and whatever is repaired, every field that is published of an
entity is as the entity shows it that the batch put. In runs in which some transaction repairs
references while it ignores modifications, a published field may also hold a reference that the
entity has lost. -/
theorem published_fields_are_true (registry : Registry) (scripts : Scripts) (level : Nat)
    (config : Config) (backend : Backend)
    (hkinds : ∀ id e, backend.table.find? id = some e → tendsItself e = true) (mute : Prop) :
    let run := (Script.hooks registry scripts).runner (level + 1)
    let may := fun w op => Operation.Truthful w op ∧ (op.Mutes w → mute)
    ∀ s m, Reach run (fun s m => m.Obeys run may s) (start (Store.new config backend)) s →
      m.Obeys run may s → ¬ m.Listens → s.store.Publishes mute (s.move run m).store := by
  intro run may s m hreach hm hnot
  have hrun : Honours run := honours_script registry scripts level
  have hmay := Operation.respects_truthful mute
  have hs : s.Kept (tendsItself · = true) (Recorded mute) Callback.Barred :=
    hreach.invariant (kept_start fun h => hkinds _ _ h) fun u n hu hn =>
      hu.move accounts_recorded (Store.Carries.trivial _ _) hmay hrun trivial hn
        (.inl fun _ _ _ _ h => h)
  exact (hs.store_move accounts_recorded (Store.Publishes.carries mute s.store) hmay hrun
    ⟨[], (List.append_nil _).symm, rfl, fun _ h => by cases h⟩ hm).2 hnot

/-- An order of a customer, with another number. -/
def renumbered : Entity := ⟨"first", .order (some "ada") "2"⟩

/-- A client records the number, and deletes the customer. -/
def renumber : List Move :=
  [.begin "t" "renumbers", .perform "t" (.modified renumbered "number" (some "2")),
    .perform "t" (.delete "ada")]

theorem renumbering_is_published :
    let s := (start market).moves plainRun renumber
    let s' := s.move plainRun (.perform "t" .commit)
    s.store.Publishes False s'.store ∧
      s'.store.feed.history.map (fun c => c.updates.find? "first") =
        [some (OrderedMap.ofList [("@type", some "Order"), ("id", some "first"),
          ("number", some "2"), ("customerId", none)])] := by
  intro s s'
  have hkinds : market.backend.table.toList.all tendsItself = true := by decide +kernel
  have heeds : ∀ (w : Work) (op : Operation), w.txn.ignoreModifications = false →
      op.Mutes w → False := fun w op hflag hmutes =>
    absurd (hflag.symm.trans hmutes.2.2) (by simp)
  refine ⟨published_fields_are_true .builtIn (fun _ _ => []) 0 .standard market.backend
    (Index.all_toList_iff.1 hkinds) False s (.perform "t" .commit)
    (reach_moves ⟨trivial, ?_, ?_, trivial⟩) ?_ (fun h => h), by decide +kernel⟩
  · refine Move.obeys_of_all
      (fun t => !t.ignoreModifications && (t.modified.find? "first").isNone) (by decide +kernel)
      fun t ht => ?_
    rw [Bool.and_eq_true, Bool.not_eq_true', Option.isNone_iff_eq_none] at ht
    refine ⟨⟨rfl, by decide, fun x hx => ?_⟩, heeds _ _ ht.1⟩
    exact absurd (ht.2.symm.trans hx) (by simp)
  all_goals
    refine Move.obeys_of_all (fun t => !t.ignoreModifications) (by decide +kernel) fun t ht => ?_
    exact ⟨trivial, heeds _ _ (by simpa using ht)⟩

/-- A client puts an order of a customer who is not there, and then has modifications ignored. -/
def disregard : List Move :=
  [.begin "t" "disregards", .perform "t" (.persist ⟨"o", .order (some "gone") "1"⟩),
    .perform "t" (.setIgnoreModifications true), .perform "t" .commit]

/-- The order is written without its customer, and published with it. -/
theorem ignored_repair_is_published_untrue :
    let s := (start (.new .standard (.plain []))).moves plainRun disregard
    Reach plainRun (fun s m => m.Obeys plainRun Operation.Truthful s)
        (start (.new .standard (.plain []))) s ∧
      ∃ c e p, s.store.feed.history = [c] ∧ s.store.backend.table.find? "o" = some e ∧
        c.updates.find? "o" = some p ∧ p.find? "customerId" = some (some "gone") ∧
        e.properties.find? "customerId" = some none := by
  intro s
  refine ⟨reach_moves ⟨trivial, fun _ _ => rfl, fun _ _ => trivial, fun _ _ => trivial, trivial⟩,
    ?_⟩
  have hhistory : s.store.feed.history.length = 1 := by decide +kernel
  have hwritten : s.store.backend.table.find? "o" = some ⟨"o", .order none "1"⟩ := by
    decide +kernel
  have hpublished : s.store.feed.history.map (fun c => c.updates.find? "o") =
      [some (OrderedMap.ofList [("@type", some "Order"), ("id", some "o"),
        ("number", some "1"), ("customerId", some "gone")])] := by decide +kernel
  obtain ⟨c, hc⟩ := List.length_eq_one_iff.1 hhistory
  rw [hc, List.map_singleton, List.singleton_inj] at hpublished
  exact ⟨c, _, _, hc, hwritten, hpublished, by decide, by decide⟩

end Session

end EntityStore
