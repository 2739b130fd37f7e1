import EntityStore.Proofs.Repair.Treatment
import EntityStore.Proofs.Transaction.Visits

/-!
# What a check has reason for

A check clears a reference only if nothing stands behind it, and takes its entity away only if the
entity refers to nothing or was never part of anything (`check_warranted`). What cannot be seen
during a pass cannot be seen later (`treated_dwindles`), so what a repair has taken away or
cleared was right in view of what it leaves (`Tending.warranted`). One check is too strict: an order
looks for its customer in another way than other entities do for what they refer to, and does not
find itself unless it is committed (`Gone`).
-/

namespace EntityStore

namespace Repair

/-- Two forms of an entity, the second of which has lost references, each to something gone. -/
def Forgoes (gone : EntityId → Prop) (e e' : Entity) : Prop :=
  ∃ fields, Trims e fields e' ∧ ∀ field ∈ fields, ∃ target ∈ e.references,
    e.properties.text? field = some target ∧ gone target

/-- An entity that goes with what it belongs to, and belongs to nothing. -/
def Stray (e : Entity) : Prop := ∃ product, e.body = .orderLine none product

/-- A check that has reason for what it does: the references that its entity loses are to something
gone, and nothing is taken away but the entity, if it refers to something gone or is stray. -/
structure Warranted (gone : EntityId → Prop) (w : Work) (e : Entity) (out : HookOutcome × Work) :
    Prop where
  cleared : Forgoes gone e ⟨e.id, out.1.body⟩
  deleted : ∀ id, out.2.txn.deleted.contains id = true → w.txn.deleted.contains id = true ∨
    id = e.id ∧ ((∃ ref ∈ e.references, gone ref) ∨ Stray e)

/-- What an entity has to do without: what cannot be seen, and for an order the order itself as long
as it is not committed. -/
def Gone (sees : EntityId → Bool) (committed : Index) (e : Entity) (target : EntityId) : Prop :=
  sees target = false ∨
    target = e.id ∧ (∃ number, e.body = .order (some e.id) number) ∧ committed.contains e.id = false

variable {gone gone' : EntityId → Prop} {w w' : Work} {e e' mid : Entity} {field : String}
  {fields : List String} {out : HookOutcome × Work} {run : HookRunner} {id : EntityId}

/-! ## References that are lost -/

theorem text?_merge {p overlay : Properties} {target : String}
    (h : Properties.text? overlay field = some target) :
    Properties.text? (p.merge overlay) field = some target := by
  rw [Properties.text?, Option.join_eq_some_iff] at h
  rw [Properties.text?, OrderedMap.find?_merge, h]
  rfl

theorem Drops.text? (h : Drops e field e') {other target : String}
    (ht : e'.properties.text? other = some target) : e.properties.text? other = some target := by
  rw [h.properties, Properties.text?, OrderedMap.find?_insert] at ht
  split at ht
  · cases ht
  · exact ht

theorem Drops.references (h : Drops e field e') {ref : EntityId} (href : ref ∈ e'.references) :
    ref ∈ e.references := by
  cases h with
  | customer => simp [Entity.references, Body.references] at href
  | field id type hpolicy htext =>
    obtain ⟨other, policy, hp, ht⟩ := mem_recordReferences_iff.1 href
    refine mem_recordReferences_iff.2 ⟨other, policy, hp, ?_⟩
    rw [Properties.text?, OrderedMap.find?_insert] at ht
    split at ht
    · cases ht
    · exact ht

theorem Drops.not_stray (h : Drops e field e') : ¬ Stray e' := by
  cases h <;> exact fun ⟨_, hbody⟩ => by cases hbody

theorem Forgoes.refl (gone : EntityId → Prop) (e : Entity) : Forgoes gone e e :=
  ⟨[], .refl, by simp⟩

theorem Forgoes.head {target : EntityId} (hdrop : Drops e field mid)
    (htarget : target ∈ e.references) (htext : e.properties.text? field = some target)
    (hgone : gone target) (h : Forgoes gone mid e') : Forgoes gone e e' := by
  obtain ⟨fields, htrims, hfields⟩ := h
  refine ⟨field :: fields, .head hdrop htrims, fun other hother => ?_⟩
  rcases List.mem_cons.1 hother with rfl | hother
  · exact ⟨target, htarget, htext, hgone⟩
  · obtain ⟨lost, hlost, htext', hgone'⟩ := hfields other hother
    exact ⟨lost, hdrop.references hlost, hdrop.text? htext', hgone'⟩

/-- What is gone for one reason or another. -/
theorem Warranted.mono (h : Warranted gone w e out) (hgone : ∀ target, gone target → gone' target) :
    Warranted gone' w e out := by
  obtain ⟨fields, htrims, hfields⟩ := h.cleared
  refine ⟨⟨fields, htrims, fun field hfield => ?_⟩, fun id hid => ?_⟩
  · obtain ⟨target, htarget, htext, hlost⟩ := hfields field hfield
    exact ⟨target, htarget, htext, hgone _ hlost⟩
  · rcases h.deleted id hid with hbefore | ⟨heq, ⟨ref, href, hlost⟩ | hstray⟩
    · exact .inl hbefore
    · exact .inr ⟨heq, .inl ⟨ref, href, hgone _ hlost⟩⟩
    · exact .inr ⟨heq, .inr hstray⟩

/-! ## Checks -/

theorem warranted_leave (gone : EntityId → Prop) (w : Work) (e : Entity) (result : Result Unit) :
    Warranted gone w e (⟨e.body, result⟩, w) :=
  ⟨.refl gone e, fun _ hid => .inl hid⟩

theorem Warranted.after_drop {target : EntityId} (hdrop : Drops e field mid)
    (htarget : target ∈ e.references) (htext : e.properties.text? field = some target)
    (hgone : gone target) {u : Work} (h : Warranted gone u mid out)
    (hsame : u.txn.deleted = w.txn.deleted) : Warranted gone w e out := by
  have hid := hdrop.id
  refine ⟨.head hdrop htarget htext hgone (hid ▸ h.cleared), fun id hout => ?_⟩
  rcases h.deleted id hout with hbefore | ⟨heq, ⟨ref, href, hlost⟩ | hstray⟩
  · exact .inl (hsame ▸ hbefore)
  · exact .inr ⟨heq.trans hid, .inl ⟨ref, hdrop.references href, hlost⟩⟩
  · exact absurd hstray hdrop.not_stray

theorem warranted_deleteSelf (hw : w.Examining e.id)
    (hreason : (∃ ref ∈ e.references, gone ref) ∨ Stray e) :
    Warranted gone w e ((deleteSelf e).run run w) := by
  obtain ⟨w', heq, htxn, -⟩ := Work.delete_of_examining hw run
  simp only [deleteSelf, leave, Program.run, Operation.perform, heq]
  refine ⟨.refl gone e, fun id hid => ?_⟩
  simp only [htxn, Transaction.recordDeletion, OrderedMap.contains_add, Bool.or_eq_true,
    decide_eq_true_iff] at hid
  exact hid.symm.imp_right fun heq => ⟨heq.symm, hreason⟩

theorem warranted_ifPresent {reference : Option EntityId} {present absent : Program HookOutcome}
    (hpresent : Warranted gone w e (present.run run w))
    (habsent : (∀ target ∈ reference, w.contains target = false) →
      Warranted gone w e (absent.run run w)) :
    Warranted gone w e ((ifPresent reference present absent).run run w) := by
  rw [run_ifPresent]
  split
  · exact hpresent
  · rename_i hnot
    refine habsent fun target htarget => ?_
    rw [Option.mem_def.1 htarget, Option.any_some, Bool.not_eq_true] at hnot
    exact hnot

theorem warranted_checkOrder (hw : w.Examining id) {customer : EntityId} {number : String}
    (hget : ∀ err, w.get customer = .error err → gone customer) :
    Warranted gone w ⟨id, .order (some customer) number⟩
      ((checkOrder ⟨id, .order (some customer) number⟩ (some customer) number).run run w) := by
  have hdrop := Drops.customer id customer number
  simp only [checkOrder, Program.run, Operation.perform]
  cases hfound : w.get customer with
  | ok other => exact warranted_leave gone w ⟨id, .order (some customer) number⟩ _
  | error err =>
    simp only [get_error hfound, if_true, record, leave, Program.run, Operation.perform]
    have htext : (Entity.properties ⟨id, .order (some customer) number⟩).text? "customerId" =
        some customer := by
      simp [Entity.properties, Entity.storeInto, Body.storeInto, Properties.text?]
    rcases Work.modified_of_examining (e := ⟨id, .order none number⟩) hw run "customerId" none with
      ⟨-, heq⟩ | ⟨-, heq⟩
    all_goals
      simp only [heq]
      exact .after_drop hdrop (by simp [Entity.references, Body.references]) htext
        (hget err hfound) (warranted_leave gone _ ⟨id, .order none number⟩ _) rfl

/-- Each reference field of a record is cleared for a reason, or the record is deleted for one. -/
theorem warranted_checkFields {schema : TypeSchema} {refs : List (String × DanglingPolicy)}
    (hrefs : ∀ ref ∈ refs, ref ∈ schema.references.entries) (type : TypeTag) (fields : Properties)
    {w : Work} (hw : w.Examining id) (hgone : ∀ target, w.contains target = false → gone target) :
    Warranted gone w ⟨id, .record type schema fields⟩
      ((checkFields ⟨id, .record type schema fields⟩ refs).run run w) := by
  induction refs generalizing fields w with
  | nil => exact warranted_leave gone w ⟨id, .record type schema fields⟩ _
  | cons ref rest ih =>
    obtain ⟨field, policy⟩ := ref
    have hrest := fun fields {w} hw => ih (fun r hr => hrefs r (List.mem_cons_of_mem _ hr)) fields
      (w := w) hw
    have hpolicy := OrderedMap.mem_entries_iff.1 (hrefs _ List.mem_cons_self)
    unfold checkFields
    simp only [Entity.field?]
    cases htext : Properties.text? fields field with
    | none => exact hrest fields hw hgone
    | some target =>
      simp only [Program.run, Operation.perform]
      by_cases hsees : w.contains target = true
      · simp only [hsees, if_true]
        exact hrest fields hw hgone
      · simp only [hsees, if_false, Bool.false_eq_true]
        rw [Bool.not_eq_true] at hsees
        have htarget : target ∈ Body.recordReferences schema fields :=
          mem_recordReferences_iff.2 ⟨field, policy, hpolicy, htext⟩
        cases policy with
        | delete =>
          exact warranted_deleteSelf (e := ⟨id, _⟩) hw (.inl ⟨target, htarget, hgone _ hsees⟩)
        | clear =>
          have hdrop := Drops.field id type hpolicy htext
          simp only [Entity.setField, Program.run, Operation.perform]
          rcases Work.modified_of_examining
            (e := ⟨id, .record type schema (fields.insert field none)⟩) hw run field none with
            ⟨-, heq⟩ | ⟨hheeds, heq⟩
          · simp only [heq]
            exact .after_drop hdrop htarget (text?_merge htext) (hgone _ hsees)
              (hrest _ hw hgone) rfl
          · simp only [heq]
            refine .after_drop hdrop htarget (text?_merge htext) (hgone _ hsees)
              (hrest _ (hw.takeDown _ _ _) fun other hother => hgone other ?_) rfl
            -- what is put meanwhile is the record itself, which is seen anyway
            rw [← (Work.puts_takeDown w ⟨id, _⟩ field none).contains
              ⟨hw.recording, hw.ensuring, hheeds, hw.checking, hw.alive⟩]
            exact hother

/-- A check has reason for what it does. What is gone is whatever it cannot see, and the customer
that an order cannot get. -/
theorem check_warranted (hw : w.Examining e.id) (he : tendsItself e = true)
    (hgone : ∀ target, w.contains target = false → gone target)
    (hget : ∀ customer number err, e.body = .order (some customer) number →
      w.get customer = .error err → gone customer) :
    Warranted gone w e ((check e).run run w) := by
  obtain ⟨id, body⟩ := e
  cases body with
  | customer name => exact warranted_leave gone w ⟨id, .customer name⟩ _
  | order customer number =>
    cases customer with
    | none => exact warranted_leave gone w ⟨id, .order none number⟩ _
    | some customer => exact warranted_checkOrder hw fun err => hget customer number err rfl
  | orderLine order product =>
    refine warranted_ifPresent (warranted_leave gone w ⟨id, .orderLine order product⟩ _)
      fun hnone => warranted_deleteSelf hw ?_
    cases order with
    | none => exact .inr ⟨product, rfl⟩
    | some order =>
      exact .inl ⟨order, by simp [Entity.references, Body.references], hgone _ (hnone order rfl)⟩
  | attachment order =>
    exact warranted_ifPresent (warranted_leave gone w ⟨id, .attachment order⟩ _)
      fun _ => warranted_leave gone w ⟨id, .attachment order⟩ _
  | node parent =>
    cases parent with
    | none => exact warranted_leave gone w ⟨id, .node none⟩ _
    | some parent =>
      refine warranted_ifPresent (warranted_leave gone w ⟨id, .node (some parent)⟩ _)
        fun hnone => warranted_deleteSelf hw (.inl ⟨parent, ?_, hgone _ (hnone parent rfl)⟩)
      simp [Entity.references, Body.references]
  | rival partner counter => simp [tendsItself] at he
  | record type schema fields => exact warranted_checkFields (fun _ h => h) type fields hw hgone
  | probe fields => simp [tendsItself] at he

end Repair

namespace Work

open Repair

variable {run : HookRunner} {u v w w' : Work} {id : EntityId} {e : Entity} {result : Result Unit}

theorem candidate?_of_get_error {err : StoreError} (h : w.get id = .error err) :
    w.txn.deleted.contains id = true ∨ w.candidate? id = none := by
  unfold get at h
  split at h
  · rename_i hd
    exact .inl hd
  · split at h
    · cases h
    · rename_i hput
      unfold Backend.get Index.get at h
      split at h
      · cases h
      · rename_i hcommitted
        exact .inr (by rw [candidate?, hput, Option.none_or]; exact hcommitted)

theorem visible_of_not_candidate
    (h : w.txn.deleted.contains id = true ∨ w.candidate? id = none) : w.visible id = false := by
  rcases h with hd | hnone
  · simp [visible, hd]
  · obtain ⟨hput, hcommitted⟩ := Option.or_eq_none_iff.1 hnone
    simp [visible, Index.contains_eq_isSome, Backend.contains, hput, hcommitted]

/-- What cannot be got while an entity is being checked is not visible, unless it is the entity
itself and not committed. -/
theorem gone_of_get_error {other : EntityId} {err : StoreError}
    (h : (w.checkOut id).get other = .error err) :
    w.visible other = false ∨ other = id ∧ w.store.backend.contains id = false := by
  rcases candidate?_of_get_error h with hd | hnone
  · exact .inl (visible_of_not_candidate (.inl hd))
  · obtain ⟨hput, hcommitted⟩ := Option.or_eq_none_iff.1 hnone
    by_cases hid : other = id
    · subst hid
      refine .inr ⟨rfl, ?_⟩
      rw [Backend.contains, Index.contains_eq_isSome]
      exact Option.isSome_eq_false_iff.2 (Option.isNone_iff_eq_none.2 hcommitted)
    · simp only [checkOut, onTxn, Index.find?_remove, if_neg (Ne.symm hid)] at hput
      exact .inl (visible_of_not_candidate (.inr (Option.or_eq_none_iff.2 ⟨hput, hcommitted⟩)))

/-- A check in a pass has reason for what it does. -/
theorem Passing.warranted (hrun : Honours run) (hw : w.Passing) (he : tendsItself e = true)
    (hcand : w.candidate? e.id = some e) (halive : w.txn.deleted.contains e.id = false) :
    Warranted (Gone w.visible w.store.backend.table e) w e (run .check e (w.checkOut e.id)) := by
  obtain ⟨lower, hlower⟩ := hrun.check e (w.checkOut e.id) he
  rw [hlower]
  have hunseen : ∀ target, (w.checkOut e.id).contains target = false →
      Gone w.visible w.store.backend.table e target := by
    intro target hunseen
    rw [contains_checkOut (visible_of_candidate? hcand halive)] at hunseen
    exact .inl hunseen
  have hunfound : ∀ customer number err, e.body = .order (some customer) number →
      (w.checkOut e.id).get customer = .error err →
      Gone w.visible w.store.backend.table e customer := by
    intro customer number err hbody herr
    refine (gone_of_get_error herr).imp_right fun ⟨hself, hcommitted⟩ => ?_
    exact ⟨hself, ⟨number, by rw [hbody, hself]⟩, hcommitted⟩
  obtain ⟨hcleared, hdeleted⟩ := check_warranted (hw.examining halive) he hunseen hunfound
  exact ⟨hcleared, hdeleted⟩

/-! ## What cannot be seen stays unseen -/

/-- Two units of work over the same committed entities, of which the second sees nothing that the
first does not see. -/
structure Dwindles (w w' : Work) : Prop where
  visible : ∀ id, w'.visible id = true → w.visible id = true
  table : w'.store.backend.table = w.store.backend.table

theorem Dwindles.trans (h : u.Dwindles v) (h' : v.Dwindles w) : u.Dwindles w :=
  ⟨fun id hid => h.visible id (h'.visible id hid), h'.table.trans h.table⟩

/-- Nothing is put that was not visible, and nothing that was taken away comes back. -/
theorem Dwindles.of_put (hput : ∀ id, w'.txn.modified.contains id = true →
      w.txn.modified.contains id = true ∨ w.visible id = true)
    (hdeleted : ∀ id, w'.txn.deleted.contains id = false → w.txn.deleted.contains id = false)
    (htable : w'.store.backend.table = w.store.backend.table) : w.Dwindles w' where
  visible id hid := by
    simp only [Work.visible, Bool.and_eq_true, Bool.not_eq_true', Bool.or_eq_true,
      Backend.contains, htable] at hid ⊢
    obtain ⟨halive, hcommitted⟩ := hid
    refine ⟨hdeleted id halive, ?_⟩
    rcases hcommitted with hmodified | hcommitted
    · rcases hput id hmodified with hbefore | hseen
      · exact .inl hbefore
      · simp only [Work.visible, Bool.and_eq_true, Bool.or_eq_true, Backend.contains] at hseen
        exact hseen.2
    · exact .inr hcommitted
  table := htable

theorem Dwindles.of_same (hmodified : w'.txn.modified = w.txn.modified)
    (hdeleted : w'.txn.deleted = w.txn.deleted)
    (htable : w'.store.backend.table = w.store.backend.table) : w.Dwindles w' :=
  .of_put (fun _ h => .inl (hmodified ▸ h)) (fun _ h => hdeleted ▸ h) htable

/-- A check in a pass brings nothing into sight. -/
theorem Treated.dwindles (hcand : w.candidate? id = some e)
    (halive : w.txn.deleted.contains id = false) (h : w.Treated id e (result, w')) :
    w.Dwindles w' := by
  have hseen := visible_of_candidate? hcand halive
  have hid := id_of_candidate? hcand
  have added : ∀ {e' fields}, Trims e fields e' → ∀ other,
      (w.txn.modified.add e').contains other = true →
      w.txn.modified.contains other = true ∨ w.visible other = true := by
    intro e' fields htrims other hother
    rw [Index.contains_add, htrims.id, hid, Bool.or_eq_true, decide_eq_true_iff] at hother
    rcases hother with rfl | hother
    · exact .inr hseen
    · exact .inl hother
  cases h with
  | left htxn hcalm | refused _ htxn hcalm =>
    exact .of_same (by rw [htxn]) (by rw [htxn]) hcalm.table
  | trimmed _ htrims htxn hcalm =>
    exact .of_put (fun other h => added htrims other (by rwa [htxn] at h))
      (fun _ h => by rwa [htxn] at h) hcalm.table
  | muted _ htrims _ htxn hcalm =>
    exact .of_put (fun other h => added htrims other (by rwa [htxn] at h))
      (fun _ h => by rwa [htxn] at h) hcalm.table
  | struck htxn hcalm =>
    refine .of_put (fun other h => .inl ?_) (fun other h => ?_) hcalm.table
    · rw [htxn] at h
      simp only [Transaction.recordDeletion, Index.contains_remove, Bool.and_eq_true] at h
      exact h.2
    · rw [htxn] at h
      simp only [Transaction.recordDeletion, OrderedMap.contains_add, Bool.or_eq_false_iff] at h
      exact h.2

/-- What cannot be seen at one time of a repair cannot be seen later. -/
theorem treated_dwindles : TreatedRelation Dwindles where
  trans := .trans
  check hcand halive ht := ht.dwindles hcand halive
  aside := .of_same

section

variable {P : Entity → Prop} {Rel : Option Entity → Entity → Properties → Prop}
  {calls : Callback → Prop} {mute : Prop} (h : Accounts P Rel mute) (hrun : Honours run)
include h hrun

/-- Every check of a repair that succeeds has reason for what it does, in view of what the repair
leaves: what was gone at the time of the check is gone in the end. -/
theorem Tending.warranted (hw : w.Tending P Rel calls mute) {before repaired : Work}
    (hbefore : Relation.ReflTransGen (NextPass run) w before) (hlast : LastPass run before repaired)
    (hv : Relation.ReflTransGen (NextPass run) w v) {visit : Visit}
    (hvisit : visit ∈ passVisits run v.beginPass) :
    Warranted (Gone repaired.visible w.store.backend.table visit.entity) visit.before visit.entity
      (visit.outcome run) := by
  have hR := treated_dwindles
  obtain ⟨hstart, hfrom⟩ := holds_between
    (I := fun u => u.Tending P Rel calls mute ∧ w.Dwindles u)
    (fun _ hu => hR.since_pass h hrun hu) (fun _ hu => hR.since_count hu _) hv
    ⟨hw, hR.aside rfl rfl rfl⟩
  have hwithin := (hR.passRelation h hrun calls).passVisits v.beginPass visit hvisit
  obtain ⟨⟨htending, hensuring⟩, hsince⟩ := hwithin.since ⟨hstart.beginPass, rfl⟩
  obtain ⟨⟨hpassed, -⟩, honward⟩ := hwithin.onward ⟨htending, hensuring⟩
  -- what is not visible at the check is not visible when the last pass is over
  obtain ⟨-, hlater⟩ := hlast.holds
    (I := fun u => u.Tending P Rel calls mute ∧ visit.before.Dwindles u)
    (fun _ hu => hR.since_pass h hrun hu) (fun _ hu => hR.since_count hu _)
    (reaches_last hv hbefore hlast)
    ⟨hpassed.endPass, honward.trans (hR.aside rfl rfl rfl)⟩
  have hsound := htending.kept.sound h
  have halive := hwithin.due.elim hsound.alive fun hd => hd
  have hwarranted := Passing.warranted hrun ⟨htending.recording, hensuring⟩
    (hsound.candidate hwithin.candidate) hwithin.candidate halive
  have htable : visit.before.store.backend.table = w.store.backend.table :=
    hsince.table.trans hfrom.table
  refine hwarranted.mono fun target hgone => hgone.imp (fun hunseen => ?_) ?_
  · cases hseen : repaired.visible target with
    | false => rfl
    | true => exact absurd (hunseen.symm.trans (hlater.visible target hseen)) (by simp)
  · rw [htable]
    exact id

end

end Work

end EntityStore
