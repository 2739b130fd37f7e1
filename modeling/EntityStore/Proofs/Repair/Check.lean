import EntityStore.Hook.Script
import EntityStore.Index.Lemmas
import EntityStore.Proofs.Repair.Verdict
import EntityStore.Proofs.Transaction.Adjustments

/-!
# How a check carries out its decision

The check of an entity is a program that looks around in the transaction as it goes. It does what
is decided from what it can see and nothing else (`run_check`).
-/

namespace EntityStore

/-! ## The state of a check -/

namespace Work

/-- The entity with an id is being checked, and is still there. -/
structure Checking (w : Work) (id : EntityId) : Prop where
  recording : w.txn.state.ensureRecording = .ok ()
  ensuring : w.txn.ensuring = true
  heeding : w.txn.ignoreModifications = false
  checking : w.txn.checking = some id
  alive : w.txn.deleted.contains id = false

/-- Two units of work the second of which puts an entity besides. -/
structure Puts (w : Work) (e : Entity) (w' : Work) : Prop where
  txn : ∃ fields, w'.txn =
    { w.txn with modified := w.txn.modified.add e, deltas := w.txn.deltas.insert e.id fields }
  store : w.store.Quiet w'.store

/-- Two units of work the second of which takes an id away besides. -/
structure Strikes (w : Work) (id : EntityId) (w' : Work) : Prop where
  txn : w'.txn = w.txn.recordDeletion id
  store : w.store.Quiet w'.store

variable {w u w' : Work} {e e' : Entity} {id : EntityId} {run : HookRunner}

theorem contains_self (h : w.Checking id) : w.contains id = true := by
  simp [contains, h.alive, h.checking]

theorem puts_takeDown (w : Work) (e : Entity) (field : String) (value : PropertyValue) :
    w.Puts e (w.takeDown e field value) :=
  ⟨⟨_, rfl⟩, (Adjusts.takeDown w e field value).store⟩

theorem Puts.trans (h : w.Puts e u) (h' : u.Puts e' w') (hid : e.id = e'.id) : w.Puts e' w' := by
  obtain ⟨⟨a, ha⟩, hs⟩ := h
  obtain ⟨⟨b, hb⟩, hs'⟩ := h'
  refine ⟨⟨b, ?_⟩, hs.trans hs'⟩
  rw [hb, ha]
  simp only [Index.add_add hid, hid, OrderedMap.insert_insert]

theorem Puts.strikes (h : w.Puts e u) (h' : u.Strikes e.id w') : w.Strikes e.id w' := by
  obtain ⟨⟨a, ha⟩, hs⟩ := h
  refine ⟨?_, hs.trans h'.store⟩
  rw [h'.txn, ha]
  simp only [Transaction.recordDeletion, Index.add_remove, OrderedMap.erase_insert]

theorem Puts.checking (h : w.Puts e w') (hw : w.Checking id) : w'.Checking id := by
  obtain ⟨⟨a, ha⟩, -⟩ := h
  rw [show w' = ⟨w'.store, w'.txn⟩ from rfl, ha]
  exact ⟨hw.recording, hw.ensuring, hw.heeding, hw.checking, hw.alive⟩

/-- Putting the entity that is being checked changes nothing about what can be seen. -/
theorem Puts.contains (h : w.Puts e w') (hw : w.Checking e.id) : w'.contains = w.contains := by
  obtain ⟨⟨a, ha⟩, hs⟩ := h
  funext x
  by_cases hx : e.id = x
  · subst hx
    have hw' : w'.Checking e.id := Puts.checking ⟨⟨a, ha⟩, hs⟩ hw
    rw [contains_self hw', contains_self hw]
  · simp only [Work.contains, ha, Index.contains_eq_isSome, Backend.contains, Backend.table,
      hs.table, Index.find?_add, if_neg hx]

theorem modified_of_checking (hw : w.Checking e.id) (field : String) (value : PropertyValue) :
    w.modified run e field value = (.ok (), w.takeDown e field value) := by
  have hthrough : (w.takeDown e field value).writesThrough = false := by
    simp [writesThrough, takeDown, onTxn, onStore, count, Transaction.recordField, hw.ensuring]
  simp [modified, hw.recording, hw.heeding, contains_self hw, writeThrough, hthrough]

theorem delete_of_ensuring (hrecording : w.txn.state.ensureRecording = .ok ())
    (hensuring : w.txn.ensuring = true) (halive : w.txn.deleted.contains id = false)
    (run : HookRunner) :
    w.delete run id = (.error .integrityRestart,
      (w.onTxn (·.recordDeletion id)).onStore (·.onBackend Backend.noteModification)) := by
  have hafter : ((w.onTxn (·.recordDeletion id)).onStore
      (·.onBackend Backend.noteModification)).txn.ensuring = true := hensuring
  simp [delete, hrecording, halive, hafter]

theorem delete_of_checking (hw : w.Checking id) (run : HookRunner) :
    ∃ w', w.delete run id = (.error .integrityRestart, w') ∧ w.Strikes id w' :=
  ⟨_, delete_of_ensuring hw.recording hw.ensuring hw.alive run, rfl,
    (Adjusts.recordDeletion w id).store⟩

end Work

/-! ## Checks -/

namespace Repair

/-- A decision about an entity and what the check leaves when it is carried out. -/
inductive CarriedOut (w : Work) (e : Entity) : Verdict → HookOutcome × Work → Prop
  | keep : CarriedOut w e .keep (⟨e.body, .ok ()⟩, w)
  | mend {body w'} : w.Puts ⟨e.id, body⟩ w' → CarriedOut w e (.mend body) (⟨body, .ok ()⟩, w')
  | remove {body w'} : w.Strikes e.id w' →
      CarriedOut w e .remove (⟨body, .error .integrityRestart⟩, w')
  | refuse {err} : CarriedOut w e (.refuse err) (⟨e.body, .error err⟩, w)

variable {w : Work} {e : Entity} {run : HookRunner}

theorem run_deleteSelf (hw : w.Checking e.id) :
    CarriedOut w e .remove ((deleteSelf e).run run w) := by
  obtain ⟨w', heq, hstrikes⟩ := Work.delete_of_checking hw run
  simp only [deleteSelf, leave, Program.run, Operation.perform, heq]
  exact .remove hstrikes

theorem run_record (hw : w.Checking e.id) (body : Body) (field : String) (value : PropertyValue) :
    CarriedOut w e (.mend body) ((record ⟨e.id, body⟩ field value).run run w) := by
  simp only [record, leave, Program.run, Operation.perform,
    Work.modified_of_checking (e := ⟨e.id, body⟩) hw]
  exact .mend (Work.puts_takeDown w _ field value)

theorem run_ifPresent (reference : Option EntityId) (present absent : Program HookOutcome) :
    (ifPresent reference present absent).run run w =
      if reference.any w.contains then present.run run w else absent.run run w := by
  cases reference with
  | none => rfl
  | some target =>
    simp only [ifPresent, Program.run, Operation.perform, Option.any_some]
    by_cases h : w.contains target = true <;> simp [h]

theorem get_error {id : EntityId} {err : StoreError} (h : w.get id = .error err) :
    err.isNotFound = true := by
  unfold Work.get at h
  split at h
  · cases h
    rfl
  · split at h
    · cases h
    · unfold Backend.get Index.get at h
      split at h
      · cases h
      · cases h
        rfl

theorem run_checkOrder (hw : w.Checking e.id) (customer : EntityId) (number : String) :
    CarriedOut w e
      (if (w.get customer).toOption.isSome then .keep else .mend (.order none number))
      ((checkOrder e (some customer) number).run run w) := by
  simp only [checkOrder, Program.run, Operation.perform]
  cases hget : w.get customer with
  | ok other => exact .keep
  | error err =>
    simp only [get_error hget, if_true]
    exact run_record hw _ _ _

/-- The program that goes through the reference fields of a record mends or removes it. -/
theorem run_checkFields (refs : List (String × DanglingPolicy)) (id : EntityId) (type : TypeTag)
    (schema : TypeSchema) (fields : Properties) (run : HookRunner) {w : Work}
    (hw : w.Checking id) :
    match mendFields w.contains refs fields with
    | none => CarriedOut w ⟨id, .record type schema fields⟩ .remove
        ((checkFields ⟨id, .record type schema fields⟩ refs).run run w)
    | some mended => ∃ w',
        (checkFields ⟨id, .record type schema fields⟩ refs).run run w =
          (⟨.record type schema mended, .ok ()⟩, w') ∧
        (mended = fields ∧ w' = w ∨
          mended ≠ fields ∧ w.Puts ⟨id, .record type schema mended⟩ w') := by
  induction refs generalizing fields w with
  | nil => exact ⟨w, rfl, .inl ⟨rfl, rfl⟩⟩
  | cons ref rest ih =>
    obtain ⟨field, policy⟩ := ref
    unfold mendFields checkFields
    simp only [Entity.field?]
    cases htext : Properties.text? fields field with
    | none => exact ih fields hw
    | some target =>
      simp only [Program.run, Operation.perform]
      by_cases hsees : w.contains target = true
      · simp only [hsees, if_true]
        exact ih fields hw
      · simp only [hsees, if_false, Bool.false_eq_true]
        cases policy with
        | delete => exact run_deleteSelf (e := ⟨id, .record type schema fields⟩) hw
        | clear =>
          -- the record with the field cleared is put, and its check goes on from there
          simp only [Entity.setField, Program.run, Operation.perform,
            Work.modified_of_checking
              (e := ⟨id, .record type schema (fields.insert field none)⟩) hw]
          have hputs := Work.puts_takeDown w
            ⟨id, .record type schema (fields.insert field none)⟩ field none
          have hrest := ih (fields.insert field none) (hputs.checking hw)
          rw [hputs.contains hw] at hrest
          cases hmend : mendFields w.contains rest (fields.insert field none) with
          | none =>
            rw [hmend] at hrest
            generalize (Program.run run (checkFields _ rest) _) = final at hrest ⊢
            cases hrest with
            | remove hstrikes => exact .remove (hputs.strikes hstrikes)
          | some mended =>
            rw [hmend] at hrest
            obtain ⟨w', heq, hcase⟩ := hrest
            refine ⟨w', heq, .inr ⟨?_, ?_⟩⟩
            · rintro rfl
              have := text?_of_mendFields hmend htext
              simp [Properties.text?] at this
            · rcases hcase with ⟨rfl, rfl⟩ | ⟨-, hmore⟩
              · exact hputs
              · exact hputs.trans hmore rfl

/-- A check carries out what is decided from what it can see. -/
theorem run_check (hw : w.Checking e.id) (he : tendsItself e = true) (run : HookRunner) :
    CarriedOut w e (verdict w.contains (fun id => (w.get id).toOption.isSome) e)
      ((check e).run run w) := by
  obtain ⟨id, body⟩ := e
  cases body with
  | customer name => exact .keep
  | order customer number =>
    cases customer with
    | none => exact .keep
    | some customer => exact run_checkOrder hw customer number
  | orderLine order product =>
    simp only [check, verdict, run_ifPresent]
    split
    · exact .keep
    · exact run_deleteSelf hw
  | attachment order =>
    simp only [check, verdict, run_ifPresent]
    split
    · exact .keep
    · exact .refuse
  | node parent =>
    cases parent with
    | none => exact .keep
    | some parent =>
      simp only [check, verdict, run_ifPresent, Option.any_some, Option.all_some]
      split
      · exact .keep
      · exact run_deleteSelf hw
  | rival partner counter => simp [tendsItself] at he
  | record type schema fields =>
    have h := run_checkFields schema.references.entries id type schema fields run hw
    simp only [check, verdict]
    cases hmend : mendFields w.contains schema.references.entries fields with
    | none =>
      rw [hmend] at h
      exact h
    | some mended =>
      rw [hmend] at h
      obtain ⟨w', heq, ⟨rfl, rfl⟩ | ⟨hne, hputs⟩⟩ := h
      · simp only [heq, if_true]
        exact .keep
      · simp only [heq, if_neg hne]
        exact .mend hputs
  | probe fields => simp [tendsItself] at he

/-! ## Checks in a pass -/

/-- A runner that carries out the hooks of the entities that look after themselves. -/
structure Honours (run : HookRunner) : Prop where
  check : ∀ e w, tendsItself e = true → ∃ lower, run .check e w = (check e).run lower w
  delete : ∀ e w, tendsItself e = true → run .delete e w = (⟨e.body, .ok ()⟩, w)

/-- What the check of an entity with an id may ask for if it looks after nothing else. -/
def TendsOnly (id : EntityId) : Operation → Prop
  | .modified e _ _ => e.id = id ∧ tendsItself e = true
  | .delete other => other = id
  | .contains _ | .get _ => True
  | _ => False

theorem checkFields_tends (refs : List (String × DanglingPolicy)) (id : EntityId) (type : TypeTag)
    (schema : TypeSchema) (fields : Properties) :
    (checkFields ⟨id, .record type schema fields⟩ refs).Asks (TendsOnly id) ∧
      (checkFields ⟨id, .record type schema fields⟩ refs).Ends fun outcome =>
        tendsItself ⟨id, outcome.body⟩ = true := by
  induction refs generalizing fields with
  | nil => exact ⟨trivial, rfl⟩
  | cons ref rest ih =>
    obtain ⟨field, policy⟩ := ref
    unfold checkFields
    split
    · exact ih fields
    · refine ⟨⟨trivial, fun found => ?_⟩, fun found => ?_⟩
      all_goals
        dsimp only
        split
      · exact (ih fields).1
      · cases policy with
        | delete => exact ⟨rfl, fun _ => trivial⟩
        | clear =>
          refine ⟨⟨rfl, rfl⟩, fun reply => ?_⟩
          cases reply with
          | ok _ => exact (ih _).1
          | error err => trivial
      · exact (ih fields).2
      · cases policy with
        | delete => exact fun _ => rfl
        | clear =>
          intro reply
          cases reply with
          | ok _ => exact (ih _).2
          | error err => rfl

theorem checkOrder_tends (id : EntityId) (customer : Option EntityId) (number : String) :
    (checkOrder ⟨id, .order customer number⟩ customer number).Asks (TendsOnly id) ∧
      (checkOrder ⟨id, .order customer number⟩ customer number).Ends fun outcome =>
        tendsItself ⟨id, outcome.body⟩ = true := by
  cases customer with
  | none => exact ⟨trivial, rfl⟩
  | some target =>
    refine ⟨⟨trivial, fun reply => ?_⟩, fun reply => ?_⟩
    · cases reply with
      | ok other => trivial
      | error err =>
        dsimp only
        split
        · exact ⟨⟨rfl, rfl⟩, fun _ => trivial⟩
        · trivial
    · cases reply with
      | ok other => rfl
      | error err =>
        dsimp only
        split
        · exact fun _ => rfl
        · rfl

theorem ifPresent_tends {e : Entity} (reference : Option EntityId)
    {present absent : Program HookOutcome}
    (hpresent : present.Asks (TendsOnly e.id) ∧
      present.Ends fun outcome => tendsItself ⟨e.id, outcome.body⟩ = true)
    (habsent : absent.Asks (TendsOnly e.id) ∧
      absent.Ends fun outcome => tendsItself ⟨e.id, outcome.body⟩ = true) :
    (ifPresent reference present absent).Asks (TendsOnly e.id) ∧
      (ifPresent reference present absent).Ends fun outcome =>
        tendsItself ⟨e.id, outcome.body⟩ = true := by
  cases reference with
  | none => exact habsent
  | some target =>
    refine ⟨⟨trivial, fun found => ?_⟩, fun found => ?_⟩
    · cases found with
      | true => exact hpresent.1
      | false => exact habsent.1
    · cases found with
      | true => exact hpresent.2
      | false => exact habsent.2

/-- The check of an entity that looks after itself touches nothing else. -/
theorem check_tends (he : tendsItself e = true) :
    (check e).Asks (TendsOnly e.id) ∧
      (check e).Ends fun outcome => tendsItself ⟨e.id, outcome.body⟩ = true := by
  obtain ⟨id, body⟩ := e
  have hleave : ∀ result, (leave body result).Asks (TendsOnly id) ∧
      (leave body result).Ends fun outcome => tendsItself ⟨id, outcome.body⟩ = true :=
    fun _ => ⟨trivial, he⟩
  have hdelete : (deleteSelf ⟨id, body⟩).Asks (TendsOnly id) ∧
      (deleteSelf ⟨id, body⟩).Ends fun outcome => tendsItself ⟨id, outcome.body⟩ = true :=
    ⟨⟨rfl, fun _ => trivial⟩, fun _ => he⟩
  cases body with
  | customer name => exact hleave _
  | order customer number => exact checkOrder_tends id customer number
  | orderLine order product => exact ifPresent_tends (e := ⟨id, _⟩) order (hleave _) hdelete
  | attachment order => exact ifPresent_tends (e := ⟨id, _⟩) order (hleave _) (hleave _)
  | node parent =>
    cases parent with
    | none => exact hleave _
    | some parent => exact ifPresent_tends (e := ⟨id, _⟩) (some parent) (hleave _) hdelete
  | rival partner counter => simp [tendsItself] at he
  | record type schema fields => exact checkFields_tends schema.references.entries id type schema _
  | probe fields => simp [tendsItself] at he

theorem honours_hooks (level : Nat) : Honours (Repair.hooks.runner (level + 1)) where
  check _ _ _ := ⟨Repair.hooks.runner level, rfl⟩
  delete _ _ _ := rfl

/-- The hooks of probes have no part in what becomes of other entities. -/
theorem honours_script (registry : Registry) (scripts : Scripts) (level : Nat) :
    Honours ((Script.hooks registry scripts).runner (level + 1)) where
  check e w he := by
    refine ⟨(Script.hooks registry scripts).runner level, ?_⟩
    obtain ⟨id, body⟩ := e
    cases body with
    | probe fields => simp [tendsItself] at he
    | _ => rfl
  delete e w he := by
    obtain ⟨id, body⟩ := e
    cases body with
    | probe fields => simp [tendsItself] at he
    | _ => rfl

end Repair

namespace Work

/-- A pass is under way in a transaction that records changes. -/
structure InPass (w : Work) : Prop where
  recording : w.txn.state.ensureRecording = .ok ()
  ensuring : w.txn.ensuring = true
  heeding : w.txn.ignoreModifications = false

/-- Whether an id stands for an entity, as long as none is being checked. -/
def visible (w : Work) (id : EntityId) : Bool :=
  !w.txn.deleted.contains id && (w.txn.modified.contains id || w.store.backend.contains id)

/-- Whether the entity with an id is found while another is being checked. -/
def found (w : Work) (id other : EntityId) : Bool :=
  ((w.checkOut id).get other).toOption.isSome

variable {w w' : Work} {id : EntityId} {e : Entity}

theorem id_of_candidate? (h : w.candidate? id = some e) : e.id = id := by
  rcases Option.or_eq_some_iff.1 h with h | ⟨-, h⟩
  · exact Index.id_of_find? h
  · exact Index.id_of_find? h

theorem visible_of_candidate? (h : w.candidate? id = some e)
    (hd : w.txn.deleted.contains id = false) : w.visible id = true := by
  simp only [visible, hd, Bool.not_false, Bool.true_and, Bool.or_eq_true, Backend.contains,
    Backend.table, Index.contains_iff_find?]
  rcases Option.or_eq_some_iff.1 h with h | ⟨-, h⟩
  · exact .inl ⟨e, h⟩
  · exact .inr ⟨e, h⟩

theorem candidate?_congr (hmodified : w'.txn.modified = w.txn.modified)
    (htable : w'.store.backend.table = w.store.backend.table) : w'.candidate? = w.candidate? := by
  funext other
  rw [candidate?, candidate?, hmodified, htable]

theorem visible_congr (hmodified : w'.txn.modified = w.txn.modified)
    (hdeleted : w'.txn.deleted = w.txn.deleted)
    (htable : w'.store.backend.table = w.store.backend.table) : w'.visible = w.visible := by
  funext other
  simp only [visible, Backend.contains, hmodified, hdeleted, htable]

/-- A check sees what is visible from outside. -/
theorem contains_checkOut (h : w.visible id = true) : (w.checkOut id).contains = w.visible := by
  funext other
  by_cases hid : id = other
  · subst hid
    rw [h]
    simp only [visible, Bool.and_eq_true, Bool.not_eq_true'] at h
    simp [contains, checkOut, onTxn, h.1]
  · have hsome : (some id == some other) = false := by simpa using hid
    simp [contains, visible, checkOut, onTxn, hsome, Index.contains_eq_isSome, hid]

theorem visible_of_found {other : EntityId} (h : w.found id other = true) :
    w.visible other = true := by
  simp only [found, get, checkOut, onTxn, Index.find?_remove] at h
  simp only [visible, Bool.and_eq_true, Bool.or_eq_true, Bool.not_eq_true', Backend.contains,
    Backend.table, Index.contains_eq_isSome]
  cases hd : w.txn.deleted.contains other with
  | true => simp [hd, Except.toOption] at h
  | false =>
    refine ⟨rfl, ?_⟩
    cases hm : w.txn.modified.find? other with
    | some x => exact .inl rfl
    | none =>
      refine .inr ?_
      cases hb : w.store.backend.memory.table.find? other with
      | some x => rfl
      | none =>
        simp [hd, hm, Backend.get, Backend.table, Index.get, hb, Except.toOption] at h

theorem InPass.checking (h : w.InPass) (hv : w.visible id = true) :
    (w.checkOut id).Checking id := by
  simp only [visible, Bool.and_eq_true, Bool.not_eq_true'] at hv
  exact ⟨h.recording, h.ensuring, h.heeding, rfl, hv.1⟩

/-- An entity that was taken out for its check and has not changed is put back where it was. -/
theorem checkIn_checkOut (h : w.candidate? id = some e) (hd : w.txn.deleted.contains id = false) :
    ((w.checkOut id).checkIn (w.txn.modified.contains id) e).txn =
      { w.txn with checking := none } := by
  obtain rfl := id_of_candidate? h
  simp only [checkIn, checkOut, onTxn, Index.contains_eq_isSome, Index.find?_remove, if_true,
    Option.isSome_none, Bool.or_false]
  cases hm : w.txn.modified.find? e.id with
  | none => simp [Index.remove_eq_self hm]
  | some x =>
    have hx : x = e := by
      rw [candidate?, hm] at h
      exact Option.some.inj h
    subst hx
    simp [hd, Index.remove_add_self hm]

end Work

namespace Repair

/-- What the check of an entity in a pass comes to, by the decision about it. -/
inductive CheckResult (w : Work) (id : EntityId) (e : Entity) : Result Unit × Work → Prop
  | kept {w' : Work} : verdict w.visible (w.found id) e = .keep →
      w'.txn = { w.txn with checking := none } → w.store.Quiet w'.store →
      CheckResult w id e (.ok (), w')
  | mended {body : Body} (fields : Properties) {w' : Work} :
      verdict w.visible (w.found id) e = .mend body →
      w'.txn =
        { w.txn with
          modified := w.txn.modified.add ⟨id, body⟩
          deltas := w.txn.deltas.insert id fields
          checking := none } →
      w.store.Quiet w'.store → CheckResult w id e (.ok (), w')
  | removed {w' : Work} : verdict w.visible (w.found id) e = .remove →
      w'.txn = { w.txn.recordDeletion id with checking := none } →
      w.store.Quiet w'.store → CheckResult w id e (.error .integrityRestart, w')
  | refused {err : StoreError} {w' : Work} : verdict w.visible (w.found id) e = .refuse err →
      w'.txn = { w.txn with checking := none } → w.store.Quiet w'.store →
      CheckResult w id e (.error err, w')

variable {w : Work} {id : EntityId} {e : Entity} {run : HookRunner}

theorem quiet_checkIn (w : Work) (tracked : Bool) (e : Entity) :
    w.store.Quiet (w.checkIn tracked e).store :=
  (Work.Adjusts.checkIn w tracked e).store

/-- A check in a pass does what is decided from what is visible. -/
theorem checkEntity_result (hrun : Honours run) (hw : w.InPass) (he : tendsItself e = true)
    (hcand : w.candidate? id = some e) (hd : w.txn.deleted.contains id = false) :
    CheckResult w id e (w.checkEntity run id) := by
  obtain rfl := Work.id_of_candidate? hcand
  have hv := Work.visible_of_candidate? hcand hd
  obtain ⟨lower, hlower⟩ := hrun.check e (w.checkOut e.id) he
  have hcheck := run_check (hw.checking hv) he lower
  rw [Work.contains_checkOut hv] at hcheck
  simp only [Work.checkEntity, hcand, hlower]
  generalize (check e).run lower (w.checkOut e.id) = outcome at hcheck ⊢
  generalize hverdict : verdict w.visible _ e = decision at hcheck
  cases hcheck with
  | keep =>
    exact .kept hverdict (Work.checkIn_checkOut hcand hd) (quiet_checkIn (w.checkOut e.id) _ _)
  | refuse =>
    exact .refused hverdict (Work.checkIn_checkOut hcand hd) (quiet_checkIn (w.checkOut e.id) _ _)
  | @mend body w' hputs =>
    obtain ⟨⟨fields, htxn⟩, hquiet⟩ := hputs
    refine .mended fields hverdict ?_ (hquiet.trans (quiet_checkIn _ _ _))
    simp only [Work.checkIn, Work.onTxn, htxn, Work.checkOut, Index.contains_eq_isSome,
      Index.find?_add, if_true, Option.isSome_some, Bool.or_true, Bool.and_true, hd, Bool.not_false,
      Index.remove_add w.txn.modified ⟨e.id, body⟩, Index.add_add]
  | @remove body w' hstrikes =>
    refine .removed hverdict ?_ (hstrikes.store.trans (quiet_checkIn _ _ _))
    simp only [Work.checkIn, Work.onTxn, hstrikes.txn, Work.checkOut, Transaction.recordDeletion,
      OrderedMap.contains_add, decide_true, Bool.true_or, Bool.not_true, Bool.false_and,
      Bool.false_eq_true, if_false, Index.remove_remove]

end Repair

end EntityStore
