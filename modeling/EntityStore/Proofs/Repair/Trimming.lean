import EntityStore.Proofs.Repair.Cascade

/-!
# What a check records

A check that mends its entity sets reference fields to null, one after another, and records each of
them. In a transaction that ignores modifications it sets them to null all the same, but records
nothing, and only an entity that is to be put anyway stays mended. Main statement: a check comes to
one of these, or it takes its entity away or is refused (`Work.checkEntity_treated`).
-/

namespace EntityStore

namespace Repair

/-! ## Fields set to null -/

/-- A property map with some fields set to null, in order. -/
def nulled (p : Properties) (fields : List String) : Properties :=
  fields.foldl (fun p field => p.insert field none) p

/-- Two forms of an entity, of which the second has lost the reference in a field. -/
inductive Drops : Entity → String → Entity → Prop
  | customer (id customer number) :
      Drops ⟨id, .order (some customer) number⟩ "customerId" ⟨id, .order none number⟩
  | field (id type) {schema fields field target} :
      schema.references.find? field = some .clear → Properties.text? fields field = some target →
      Drops ⟨id, .record type schema fields⟩ field
        ⟨id, .record type schema (fields.insert field none)⟩

/-- Two forms of an entity, of which the second has lost the references in some fields. -/
inductive Trims : Entity → List String → Entity → Prop
  | refl {e} : Trims e [] e
  | head {e field mid fields e'} : Drops e field mid → Trims mid fields e' →
      Trims e (field :: fields) e'

variable {e e' mid : Entity} {field : String} {fields : List String}

theorem Drops.id (h : Drops e field e') : e'.id = e.id := by
  cases h <;> rfl

theorem Drops.tendsItself (h : Drops e field e') : Repair.tendsItself e' = true := by
  cases h <;> rfl

theorem Drops.isRecord (h : Drops e field e') : Repair.isRecord e' = Repair.isRecord e := by
  cases h <;> rfl

/-- Seen from outside, the field has become null. -/
theorem Drops.properties (h : Drops e field e') :
    e'.properties = e.properties.insert field none := by
  refine OrderedMap.ext_find? fun key => ?_
  cases h with
  | customer =>
    simp only [Entity.properties, Entity.storeInto, Body.storeInto, OrderedMap.find?_insert]
    grind [Entity.tag, Body.tag]
  | field _ _ =>
    simp only [Entity.properties, Entity.storeInto, Body.storeInto, OrderedMap.find?_merge,
      OrderedMap.find?_insert]
    grind [Entity.tag, Body.tag]

theorem Trims.id (h : Trims e fields e') : e'.id = e.id := by
  induction h with
  | refl => rfl
  | head hdrop _ ih => rw [ih, hdrop.id]

theorem Trims.preserves {P : Entity → Prop} (hP : ∀ {e field e'}, P e → Drops e field e' → P e')
    (h : Trims e fields e') (he : P e) : P e' := by
  induction h with
  | refl => exact he
  | head hdrop _ ih => exact ih (hP he hdrop)

end Repair

namespace Store

/-- Two stores that differ at most in announcements, remarks and counters other than those of
passes. -/
structure Calm (s s' : Store) : Prop extends Quiet s s' where
  passes : s'.statistics.integrityPasses = s.statistics.integrityPasses
  restarts : s'.statistics.integrityRestarts = s.statistics.integrityRestarts

namespace Calm

variable {s t u : Store}

theorem refl (s : Store) : Calm s s := ⟨.refl s, rfl, rfl⟩

theorem trans (h : s.Calm t) (h' : t.Calm u) : s.Calm u :=
  ⟨h.toQuiet.trans h'.toQuiet, h'.passes.trans h.passes, h'.restarts.trans h.restarts⟩

theorem countQuery (s : Store) : s.Calm (s.count Statistics.countQuery) :=
  ⟨.count s _, rfl, rfl⟩

end Calm

end Store

namespace Work

/-- The fields recorded of the entity under an id, or those with which a record of it begins. -/
def recorded (w : Work) (id : EntityId) : Properties :=
  (w.txn.deltas.find? id).getD (Properties.forId id)

/-- The entity with an id is being checked and is still there, whether changes of fields are
recorded or not. -/
structure Examining (w : Work) (id : EntityId) : Prop where
  recording : w.txn.state.ensureRecording = .ok ()
  ensuring : w.txn.ensuring = true
  checking : w.txn.checking = some id
  alive : w.txn.deleted.contains id = false

variable {w w' : Work} {id : EntityId} {e : Entity} {run : HookRunner}

theorem Examining.takeDown (h : w.Examining id) (e : Entity) (field : String)
    (value : PropertyValue) : (w.takeDown e field value).Examining id :=
  ⟨h.recording, h.ensuring, h.checking, h.alive⟩

theorem calm_takeDown (w : Work) (e : Entity) (field : String) (value : PropertyValue) :
    w.store.Calm (w.takeDown e field value).store :=
  ⟨(Adjusts.takeDown w e field value).store, rfl, rfl⟩

theorem modified_of_examining (h : w.Examining e.id) (run : HookRunner) (field : String)
    (value : PropertyValue) :
    w.txn.ignoreModifications = true ∧ w.modified run e field value = (.ok (), w) ∨
      w.txn.ignoreModifications = false ∧
        w.modified run e field value = (.ok (), w.takeDown e field value) := by
  cases hflag : w.txn.ignoreModifications with
  | true => exact .inl ⟨rfl, by simp [modified, h.recording, hflag]⟩
  | false =>
    refine .inr ⟨rfl, modified_of_checking ⟨h.recording, h.ensuring, hflag, h.checking, h.alive⟩ ..⟩

theorem delete_of_examining (h : w.Examining id) (run : HookRunner) :
    ∃ w', w.delete run id = (.error .integrityRestart, w') ∧ w'.txn = w.txn.recordDeletion id ∧
      w.store.Calm w'.store :=
  ⟨_, delete_of_ensuring h.recording h.ensuring h.alive run, rfl,
    (Adjusts.recordDeletion w id).store, rfl, rfl⟩

end Work

/-! ## What a check leaves -/

namespace Repair

/-- What the check of an entity leaves: its form, and the unit of work. -/
inductive Leaves (w : Work) (e : Entity) : HookOutcome × Work → Prop
  | kept : Leaves w e (⟨e.body, .ok ()⟩, w)
  | noted {e' fields w'} : w.txn.ignoreModifications = false → Trims e fields e' →
      w'.txn = { w.txn with
        modified := w.txn.modified.add e'
        deltas := w.txn.deltas.insert e.id (nulled (w.recorded e.id) fields) } →
      w.store.Calm w'.store → Leaves w e (⟨e'.body, .ok ()⟩, w')
  | muted {e' fields} : w.txn.ignoreModifications = true → Trims e fields e' →
      Leaves w e (⟨e'.body, .ok ()⟩, w)
  | struck {body w'} : w'.txn = w.txn.recordDeletion e.id → w.store.Calm w'.store →
      Leaves w e (⟨body, .error .integrityRestart⟩, w')
  | refused {err} : isRecord e = false → Leaves w e (⟨e.body, .error err⟩, w)

variable {w : Work} {e mid : Entity} {field : String} {out : HookOutcome × Work} {run : HookRunner}

theorem recorded_takeDown (w : Work) (e : Entity) (field : String) (value : PropertyValue) :
    (w.takeDown e field value).recorded e.id = (w.recorded e.id).insert field value := by
  simp [Work.recorded, Work.takeDown, Work.onTxn, Work.onStore, Work.count,
    Transaction.recordField]

/-- A check that has recorded the loss of a reference and goes on. -/
theorem Leaves.after_noted (hheeds : w.txn.ignoreModifications = false)
    (hdrop : Drops e field mid) (hrecord : isRecord mid = true)
    (h : Leaves (w.takeDown mid field none) mid out) : Leaves w e out := by
  have hcalm := w.calm_takeDown mid field none
  have hid := hdrop.id
  have htxn : (w.takeDown mid field none).txn = w.txn.recordField mid field none := rfl
  cases h with
  | kept =>
    refine .noted hheeds (.head hdrop .refl) ?_ hcalm
    rw [htxn, Transaction.recordField, hid]
    rfl
  | @noted e' fields w' _ htrims hafter hstore =>
    refine .noted hheeds (.head hdrop htrims) ?_ (hcalm.trans hstore)
    rw [hafter, recorded_takeDown, htxn, Transaction.recordField, hid]
    simp only [OrderedMap.insert_insert, Index.add_add htrims.id.symm]
    rfl
  | muted hignores _ =>
    rw [htxn] at hignores
    exact absurd (hheeds.symm.trans hignores) (by simp)
  | struck hafter hstore =>
    refine .struck ?_ (hcalm.trans hstore)
    rw [hafter, htxn, ← hid]
    simp only [Transaction.recordDeletion, Transaction.recordField, Index.add_remove,
      OrderedMap.erase_insert]
  | refused hnot =>
    rw [hrecord] at hnot
    cases hnot

/-- A check that has lost a reference without recording it and goes on. -/
theorem Leaves.after_muted (hignores : w.txn.ignoreModifications = true)
    (hdrop : Drops e field mid) (hrecord : isRecord mid = true) (h : Leaves w mid out) :
    Leaves w e out := by
  cases h with
  | kept => exact .muted hignores (.head hdrop .refl)
  | noted hheeds _ _ _ => exact absurd (hheeds.symm.trans hignores) (by simp)
  | muted _ htrims => exact .muted hignores (.head hdrop htrims)
  | struck hafter hstore =>
    rw [hdrop.id] at hafter
    exact .struck hafter hstore
  | refused hnot =>
    rw [hrecord] at hnot
    cases hnot

theorem leaves_deleteSelf (hw : w.Examining e.id) (run : HookRunner) :
    Leaves w e ((deleteSelf e).run run w) := by
  obtain ⟨w', heq, htxn, hcalm⟩ := Work.delete_of_examining hw run
  simp only [deleteSelf, leave, Program.run, Operation.perform, heq]
  exact .struck htxn hcalm

theorem leaves_ifPresent (reference : Option EntityId) {present absent : Program HookOutcome}
    (hpresent : Leaves w e (present.run run w)) (habsent : Leaves w e (absent.run run w)) :
    Leaves w e ((ifPresent reference present absent).run run w) := by
  rw [run_ifPresent]
  split
  · exact hpresent
  · exact habsent

theorem leaves_checkOrder {id : EntityId} (hw : w.Examining id) (run : HookRunner)
    (customer : EntityId) (number : String) :
    Leaves w ⟨id, .order (some customer) number⟩
      ((checkOrder ⟨id, .order (some customer) number⟩ (some customer) number).run run w) := by
  have hdrop := Drops.customer id customer number
  simp only [checkOrder, Program.run, Operation.perform]
  cases hget : w.get customer with
  | ok other => exact .kept
  | error err =>
    simp only [get_error hget, if_true, record, leave, Program.run, Operation.perform]
    rcases Work.modified_of_examining (e := ⟨id, .order none number⟩) hw run "customerId" none with
      ⟨hflag, heq⟩ | ⟨hflag, heq⟩
    · simp only [heq]
      exact .muted hflag (.head hdrop .refl)
    · simp only [heq]
      exact .noted hflag (.head hdrop .refl) rfl (w.calm_takeDown _ _ _)

/-- The reference fields of a record are gone through one by one. -/
theorem leaves_checkFields {schema : TypeSchema} {refs : List (String × DanglingPolicy)}
    (hrefs : ∀ ref ∈ refs, ref ∈ schema.references.entries) (id : EntityId) (type : TypeTag)
    (fields : Properties) (run : HookRunner) {w : Work} (hw : w.Examining id) :
    Leaves w ⟨id, .record type schema fields⟩
      ((checkFields ⟨id, .record type schema fields⟩ refs).run run w) := by
  induction refs generalizing fields w with
  | nil => exact .kept
  | cons ref rest ih =>
    obtain ⟨field, policy⟩ := ref
    have hrest := fun fields {w} hw => ih (fun r hr => hrefs r (List.mem_cons_of_mem _ hr)) fields
      (w := w) hw
    unfold checkFields
    simp only [Entity.field?]
    cases htext : Properties.text? fields field with
    | none => exact hrest fields hw
    | some target =>
      simp only [Program.run, Operation.perform]
      by_cases hsees : w.contains target = true
      · simp only [hsees, if_true]
        exact hrest fields hw
      · simp only [hsees, if_false, Bool.false_eq_true]
        cases policy with
        | delete => exact leaves_deleteSelf (e := ⟨id, _⟩) hw run
        | clear =>
          have hpolicy := OrderedMap.mem_entries_iff.1 (hrefs _ List.mem_cons_self)
          have hdrop := Drops.field id type hpolicy htext
          simp only [Entity.setField, Program.run, Operation.perform]
          rcases Work.modified_of_examining
            (e := ⟨id, .record type schema (fields.insert field none)⟩) hw run field none with
            ⟨hflag, heq⟩ | ⟨hflag, heq⟩
          · simp only [heq]
            exact .after_muted hflag hdrop rfl (hrest _ hw)
          · simp only [heq]
            exact .after_noted hflag hdrop rfl (hrest _ (hw.takeDown _ _ _))

/-- The check of an entity that looks after itself. -/
theorem check_leaves (hw : w.Examining e.id) (he : tendsItself e = true) (run : HookRunner) :
    Leaves w e ((check e).run run w) := by
  obtain ⟨id, body⟩ := e
  cases body with
  | customer name => exact .kept
  | order customer number =>
    cases customer with
    | none => exact .kept
    | some customer => exact leaves_checkOrder hw run customer number
  | orderLine order product => exact leaves_ifPresent order .kept (leaves_deleteSelf hw run)
  | attachment order => exact leaves_ifPresent order .kept (.refused rfl)
  | node parent =>
    cases parent with
    | none => exact .kept
    | some parent => exact leaves_ifPresent (some parent) .kept (leaves_deleteSelf hw run)
  | rival partner counter => simp [tendsItself] at he
  | record type schema fields => exact leaves_checkFields (fun _ h => h) id type fields run hw
  | probe fields => simp [tendsItself] at he

end Repair

namespace Work

open Repair

/-- A pass is under way in a transaction that can still be changed. -/
structure Passing (w : Work) : Prop where
  recording : w.txn.state.ensureRecording = .ok ()
  ensuring : w.txn.ensuring = true

/-- What the check of the entity under an id leaves in a pass. -/
inductive Treated (w : Work) (id : EntityId) (e : Entity) : Result Unit × Work → Prop
  | left {w' : Work} : w'.txn = { w.txn with checking := none } → w.store.Calm w'.store →
      Treated w id e (.ok (), w')
  | trimmed {e' fields} {w' : Work} : w.txn.ignoreModifications = false → Trims e fields e' →
      w'.txn =
        { w.txn with
          modified := w.txn.modified.add e'
          deltas := w.txn.deltas.insert id (nulled (w.recorded id) fields)
          checking := none } →
      w.store.Calm w'.store → Treated w id e (.ok (), w')
  | muted {e' fields} {w' : Work} : w.txn.ignoreModifications = true → Trims e fields e' →
      w.txn.modified.contains id = true →
      w'.txn = { w.txn with modified := w.txn.modified.add e', checking := none } →
      w.store.Calm w'.store → Treated w id e (.ok (), w')
  | struck {w' : Work} : w'.txn = { w.txn.recordDeletion id with checking := none } →
      w.store.Calm w'.store → Treated w id e (.error .integrityRestart, w')
  | refused {err} {w' : Work} : isRecord e = false → w'.txn = { w.txn with checking := none } →
      w.store.Calm w'.store → Treated w id e (.error err, w')

variable {w : Work} {id : EntityId} {e : Entity} {run : HookRunner}

theorem Passing.examining (hw : w.Passing) (hd : w.txn.deleted.contains id = false) :
    (w.checkOut id).Examining id :=
  ⟨hw.recording, hw.ensuring, rfl, hd⟩

theorem calm_checkIn (w : Work) (tracked : Bool) (e : Entity) :
    w.store.Calm (w.checkIn tracked e).store := .refl _

theorem checkIn_of_put {after : Work} {e : Entity} {tracked : Bool} (modified : Index)
    (hmodified : after.txn.modified = modified.add e)
    (hd : after.txn.deleted.contains e.id = false) :
    (after.checkIn tracked e).txn = { after.txn with checking := none } := by
  have hcontains : (modified.add e).contains e.id = true := by
    simp [Index.contains_eq_isSome]
  simp only [checkIn, onTxn, hmodified, hd, hcontains, Bool.not_false, Bool.or_true, Bool.and_true,
    if_true, Index.add_add rfl]

/-- An entity that has changed during its check without being put. -/
theorem checkIn_checkOut_of_changed (e' : Entity) (hd : w.txn.deleted.contains e'.id = false) :
    ((w.checkOut e'.id).checkIn (w.txn.modified.contains e'.id) e').txn =
      if w.txn.modified.contains e'.id then
        { w.txn with modified := w.txn.modified.add e', checking := none }
      else { w.txn with checking := none } := by
  have hout : (w.txn.modified.remove e'.id).contains e'.id = false := by
    simp [Index.contains_eq_isSome]
  simp only [checkIn, checkOut, onTxn, hd, hout, Bool.not_false, Bool.or_false, Bool.true_and,
    Index.remove_add]
  split
  · rfl
  · rename_i hnot
    rw [Index.contains_eq_isSome, Bool.not_eq_true, Option.isSome_eq_false_iff,
      Option.isNone_iff_eq_none] at hnot
    rw [Index.remove_eq_self hnot]

/-- A check in a pass leaves its entity, trims it, takes it away or is refused. -/
theorem checkEntity_treated (hrun : Honours run) (hw : w.Passing) (he : tendsItself e = true)
    (hcand : w.candidate? id = some e) (hd : w.txn.deleted.contains id = false) :
    w.Treated id e (w.checkEntity run id) := by
  obtain rfl := id_of_candidate? hcand
  obtain ⟨lower, hlower⟩ := hrun.check e (w.checkOut e.id) he
  have hleaves := check_leaves (hw.examining hd) he lower
  simp only [checkEntity, hcand, hlower]
  generalize (check e).run lower (w.checkOut e.id) = out at hleaves
  cases hleaves with
  | kept => exact .left (checkIn_checkOut hcand hd) (calm_checkIn (w.checkOut e.id) _ _)
  | @noted e' fields after hflag htrims hafter hcalm =>
    obtain ⟨id', body⟩ := e'
    obtain rfl : id' = e.id := htrims.id
    refine .trimmed hflag htrims ?_ (hcalm.trans (calm_checkIn _ _ _))
    rw [checkIn_of_put (w.checkOut e.id).txn.modified (by rw [hafter])
      (by rw [hafter]; exact hd), hafter]
    simp only [checkOut, onTxn, recorded, Index.remove_add w.txn.modified ⟨e.id, body⟩]
  | @muted e' fields hflag htrims =>
    obtain ⟨id', body⟩ := e'
    obtain rfl : id' = e.id := htrims.id
    have htxn := checkIn_checkOut_of_changed ⟨e.id, body⟩ hd
    have hcalm := calm_checkIn (w.checkOut e.id) (w.txn.modified.contains e.id) ⟨e.id, body⟩
    cases htracked : w.txn.modified.contains e.id with
    | true =>
      rw [htracked] at htxn hcalm
      exact .muted hflag htrims htracked htxn hcalm
    | false =>
      rw [htracked] at htxn hcalm
      exact .left htxn hcalm
  | @struck body after hafter hcalm =>
    refine .struck ?_ (hcalm.trans (calm_checkIn _ _ _))
    simp only [checkIn, onTxn, hafter, checkOut, Transaction.recordDeletion,
      OrderedMap.contains_add, decide_true, Bool.true_or, Bool.not_true, Bool.false_and,
      Bool.false_eq_true, if_false, Index.remove_remove]
  | refused hnot =>
    exact .refused hnot (checkIn_checkOut hcand hd) (calm_checkIn (w.checkOut e.id) _ _)

end Work

end EntityStore
