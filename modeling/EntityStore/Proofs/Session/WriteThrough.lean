import EntityStore.Proofs.Repair.Treatment
import EntityStore.Proofs.Session.Overlay
import EntityStore.Proofs.Session.Quiescence
import EntityStore.Proofs.Session.Tending
import EntityStore.Proofs.Transaction.Accrual

/-!
# What is written at once

In a transaction that writes every change at once, a change that succeeds takes everything along
that was pending: what earlier changes have left behind when the backend rejected them or a repair
failed, and what was recorded before changes were written at once. There is one exception. A
deletion of an id that is still to be taken away succeeds and does nothing, so a deletion that has
failed is not made up for by trying again.

Main statement: `Session.success_means_written`.
-/

namespace EntityStore

open Repair

/-- An active transaction writes its changes at once, and no pass is under way. -/
structure Transaction.Immediate (t : Transaction) : Prop where
  active : t.isActive = true
  autoCommit : t.autoCommit = true
  ensuring : t.ensuring = false

namespace Work

variable {run : HookRunner} {w w' : Work} {id : EntityId} {e : Entity}

/-- A write of all that was pending. It was handed to the backend as the repair has left it: no
entity has come back that was to be taken away, and every entity that was to be put is there,
perhaps without some of its references, unless the repair has taken it away. Then the callbacks have
run, and nothing is pending any more. -/
structure Flushed (w : Work) (t : Transaction) (mid : Store) (w' : Work) : Prop where
  delivers : w.store.Delivers t.batch t.changeSet mid
  unrepaired : w.txn.ensureIntegrity = false → t = w.txn
  taken : ∀ id, w.txn.deleted.contains id = true → mid.backend.table.find? id = none
  put : ∀ id e, w.txn.modified.find? id = some e →
    t.deleted.contains id = true ∧ mid.backend.table.find? id = none ∨
      ∃ fields e', Trims e fields e' ∧ mid.backend.table.find? id = some e'
  called : (Callback.runAll w.txn.callbacks mid).Unmoved w'.store
  spared : (∀ c ∈ w.txn.callbacks, c.SparesTable) → w'.store.backend.table = mid.backend.table
  empty : w'.txn.isEmpty = true ∧ w'.txn.deltas = .empty

/-- What a repair that succeeds has made of a working set, if there was one. -/
theorem HandsOver.refines {repaired : Work} {mid : Store} (hrun : Honours run) (hw : w.OfTending)
    (hactive : w.txn.isActive = true) (h : HandsOver run w repaired mid w') :
    w.Between repaired ∧ w.Refines repaired := by
  have hsound := hw.sound accounts_tending
  cases hflag : w.txn.ensureIntegrity with
  | true =>
    have hbetween := between_ensureIntegrity hrun hsound
    have hrefines := treated_refines.ensureIntegrity accounts_tending hrun
      ⟨hw, ensureRecording_of_isActive hactive, fun _ => trivial⟩
    rw [h.repair hflag] at hbetween hrefines
    exact ⟨hbetween, hrefines⟩
  | false =>
    obtain rfl := h.unrepaired hflag
    exact ⟨⟨hsound, ⟨rfl, rfl⟩, .ofStore _ (.refl _)⟩, .refl _⟩

/-- A write that succeeds has written everything. -/
theorem flushed_of_writePending (hrun : Honours run) (hw : w.OfTending)
    (hactive : w.txn.isActive = true) (h : w.writePending run = (.ok (), w')) :
    ∃ t mid, w.Flushed t mid w' := by
  obtain ⟨repaired, mid, hhands⟩ := handsOver_of_writePending h
  obtain ⟨hbetween, hrefines⟩ := hhands.refines hrun hw hactive
  have hcalled := hhands.called
  rw [hbetween.adjusts.callbacks] at hcalled
  have htable : ∀ id, mid.backend.table.find? id = repaired.overlay id :=
    find?_of_delivers hhands.delivers
  have hgone : ∀ id, repaired.txn.deleted.contains id = true →
      mid.backend.table.find? id = none := fun id hd => by
    rw [htable, overlay_of_deleted hbetween.sound.txn_apart hd]
  refine ⟨repaired.txn, mid, .of_unmoved hbetween.adjusts.store.unmoved hhands.delivers,
    fun hoff => by rw [hhands.unrepaired hoff], fun id hd => hgone id (hrefines.deleted id hd),
    fun id e he => ?_, hcalled, fun hspares => ?_, ?_⟩
  · refine (hrefines.put id e he).imp (fun hd => ⟨hd, hgone id hd⟩) ?_
    rintro ⟨fields, e', htrims, he'⟩
    exact ⟨fields, e', htrims, by rw [htable, overlay, he']⟩
  · exact hcalled.table.trans (Callback.runAll_sparesTable hspares mid)
  · rw [hhands.txn]
    exact ⟨rfl, rfl⟩

theorem Flushed.of_unmoved {s s' : Store} {pending t : Transaction} {mid : Store}
    (hs : s.Unmoved s') (h : Flushed ⟨s', pending⟩ t mid w') : Flushed ⟨s, pending⟩ t mid w' :=
  ⟨.of_unmoved hs h.delivers, h.unrepaired, h.taken, h.put, h.called, h.spared, h.empty⟩

theorem writeThrough_of_immediate (h : w.txn.Immediate) :
    w.writeThrough run = w.writePending run := by
  simp [writeThrough, writesThrough, h.active, h.autoCommit, h.ensuring]

/-- An entity that was put has been written. -/
theorem persist_immediate (h : w.txn.Immediate) (hok : w.persist run e = (.ok (), w')) :
    w.txn.deleted.contains e.id = false ∧
      (w.onTxn (·.recordSnapshot e)).writePending run = (.ok (), w') := by
  have hrecorded : (w.onTxn (·.recordSnapshot e)).txn.Immediate :=
    ⟨h.active, h.autoCommit, h.ensuring⟩
  rw [persist, ensureRecording_of_isActive h.active] at hok
  dsimp only at hok
  split at hok
  · cases hok
  · rename_i halive
    rw [writeThrough_of_immediate hrecorded] at hok
    exact ⟨by simpa using halive, hok⟩

theorem delete_immediate (h : w.txn.Immediate) (run : HookRunner) (id : EntityId) :
    w.delete run id =
      if w.txn.deleted.contains id then (.ok (), w)
      else ((w.onTxn (·.recordDeletion id)).onStore
        (·.onBackend Backend.noteModification)).writePending run := by
  rw [delete, ensureRecording_of_isActive h.active]
  refine if_congr Iff.rfl rfl ?_
  have hrecorded : ((w.onTxn (·.recordDeletion id)).onStore
      (·.onBackend Backend.noteModification)).txn.Immediate := ⟨h.active, h.autoCommit, h.ensuring⟩
  rw [if_neg (by simp [hrecorded.ensuring])]
  exact writeThrough_of_immediate hrecorded

/-- What success means where changes are written at once. After an entity has been put, everything
pending is written. So it is after a deletion, and the id is not there any more; but if the id was
to be taken away already, nothing has happened. -/
def WritesAtOnce (run : HookRunner) (w : Work) : Prop :=
  w.txn.isActive = true → w.txn.autoCommit = true →
    (∀ e w', tendsItself e = true → w.persist run e = (.ok (), w') →
      ∃ t mid, (w.onTxn (·.recordSnapshot e)).Flushed t mid w') ∧
    ∀ id w', w.delete run id = (.ok (), w') →
      if w.txn.deleted.contains id then w' = w
      else ∃ t mid, (w.onTxn (·.recordDeletion id)).Flushed t mid w' ∧
        mid.backend.contains id = false

theorem writesAtOnce (hrun : Honours run) (hw : w.OfTending) (hquiet : w.txn.Quiescent) :
    w.WritesAtOnce run := by
  intro hactive hauto
  have himmediate : w.txn.Immediate := ⟨hactive, hauto, hquiet.ensuring rfl⟩
  have hkeeps := kept_upholds accounts_tending Store.carries_tending Operation.respects_tending hrun
  refine ⟨fun e w' he hok => ?_, fun id w' hok => ?_⟩
  · obtain ⟨halive, hwrite⟩ := persist_immediate himmediate hok
    exact flushed_of_writePending hrun (hkeeps.snapshot ⟨hw, trivial⟩ he halive).1 hactive hwrite
  · rw [delete_immediate himmediate] at hok
    split at hok
    · rename_i hd
      rw [if_pos hd]
      exact (Prod.mk.inj hok).2.symm
    · rename_i hd
      rw [if_neg hd]
      obtain ⟨t, mid, hflushed⟩ :=
        flushed_of_writePending hrun (hkeeps.deletion id ⟨hw, trivial⟩).1 hactive hok
      have hstruck : (w.txn.recordDeletion id).deleted.contains id = true := by
        simp [Transaction.recordDeletion, OrderedMap.contains_add]
      refine ⟨t, mid, hflushed.of_unmoved (Store.Quiet.noteModification _).unmoved, ?_⟩
      rw [Backend.contains, Index.contains_eq_isSome, hflushed.taken id hstruck]
      rfl

end Work

namespace Session

variable {s : Session}

/-- However clients have got to the working set of a transaction, whatever the backend has rejected
and whenever changes have begun to be written at once: where they are, a change that puts an entity
or takes one away and succeeds has written everything that was pending. Only the deletion of an id
that is still to be taken away succeeds without writing. The same holds at the end of a program that
runs in a transaction of its own. -/
theorem success_means_written (registry : Registry) (scripts : Scripts) (level : Nat) (store : Store)
    (hstore : store.Holds (tendsItself · = true)) :
    let run := (Script.hooks registry scripts).runner (level + 1)
    ∀ s, Reach run (fun _ m => m.Asks Operation.Tending) (start store) s →
      (∀ key t, s.transactions.find? key = some t → Work.WritesAtOnce run ⟨s.store, t⟩) ∧
      ∀ (name : String) (p : Program Unit), p.Asks Operation.Tending →
        (p.run run (s.store.begin name)).2.WritesAtOnce run := by
  intro run s hreach
  have hrun : Honours run := honours_script registry scripts level
  have hs := ofTending_of_reach hrun hstore hreach
  obtain ⟨hheld, hended⟩ := quiescent_of_reach hreach
  exact ⟨fun key t ht => Work.writesAtOnce hrun (hs.held ht) (hheld key t ht), fun name p hp =>
    Work.writesAtOnce hrun (hs.program hrun name hp) (hended name Unit p)⟩

/-- The market over a backend that rejects the first batch. -/
def shakyMarket : Store := .new .standard (.failing 1 market.backend.table.toList)

/-- A client writes at once. The first order is rejected and stays pending. -/
def insist : List Move :=
  [.begin "t" "insists", .perform "t" (.setAutoCommit true),
    .perform "t" (.persist ⟨"second", .order (some "ada") "2"⟩)]

/-- The deletion of the customer takes the pending order along, and both orders forget her. -/
theorem deletion_writes_what_was_rejected :
    let s := (start shakyMarket).moves plainRun insist
    ∃ t w', s.transactions.find? "t" = some t ∧
      Work.delete plainRun "ada" ⟨s.store, t⟩ = (.ok (), w') ∧
      w'.store.backend.table.toList =
        [⟨"bob", .customer "Bob"⟩, ⟨"first", .order none "1"⟩, ⟨"second", .order none "2"⟩] ∧
      ∃ t' mid, (Work.onTxn ⟨s.store, t⟩ (·.recordDeletion "ada")).Flushed t' mid w' := by
  intro s
  have hreach : Reach plainRun (fun _ m => m.Asks Operation.Tending) (start shakyMarket) s :=
    reach_moves ⟨trivial, trivial, rfl, trivial⟩
  have hholds : shakyMarket.backend.table.toList.all tendsItself = true := by decide +kernel
  have hwrites := (success_means_written .builtIn (fun _ _ => []) 0 shakyMarket
    (Index.all_toList_iff.1 hholds) s hreach).1 "t"
  have hheld : (s.transactions.find? "t").any (fun t =>
      t.isActive && t.autoCommit && !t.deleted.contains "ada" &&
        (Work.delete plainRun "ada" ⟨s.store, t⟩).1.isOk &&
        decide ((Work.delete plainRun "ada" ⟨s.store, t⟩).2.store.backend.table.toList =
          [⟨"bob", .customer "Bob"⟩, ⟨"first", .order none "1"⟩, ⟨"second", .order none "2"⟩])) =
      true := by
    decide +kernel
  obtain ⟨t, ht, hends⟩ := (Option.any_eq_true _ _).1 hheld
  simp only [Bool.and_eq_true, Bool.not_eq_true', decide_eq_true_eq] at hends
  obtain ⟨⟨⟨⟨hactive, hauto⟩, halive⟩, hok⟩, hleft⟩ := hends
  obtain ⟨_, hdelete⟩ := Work.exists_of_isOk hok
  have hwritten := (hwrites t ht hactive hauto).2 "ada" _ hdelete
  rw [if_neg (by simp [halive])] at hwritten
  obtain ⟨t', mid, hflushed, -⟩ := hwritten
  exact ⟨t, _, ht, hdelete, hleft, t', mid, hflushed⟩

/-- A deletion that was rejected. When it is tried again it succeeds, but nothing is written: the
deletion is still pending, and the customer is still there. -/
theorem second_try_is_not_written :
    let s := (start (Store.new .standard (.failing 1 [⟨"c", .customer "Ada"⟩]))).moves plainRun
      [.begin "t" "t", .perform "t" (.setAutoCommit true), .perform "t" (.delete "c")]
    ∃ t, s.transactions.find? "t" = some t ∧ t.isActive = true ∧ t.autoCommit = true ∧
      Work.delete plainRun "c" ⟨s.store, t⟩ = (.ok (), ⟨s.store, t⟩) ∧ t.isEmpty = false ∧
      s.store.backend.contains "c" = true := by
  intro s
  have hheld : (s.transactions.find? "t").any (fun t =>
      t.isActive && t.autoCommit && !t.ensuring && t.deleted.contains "c" && !t.isEmpty &&
        s.store.backend.contains "c") = true := by
    decide +kernel
  obtain ⟨t, ht, hpends⟩ := (Option.any_eq_true _ _).1 hheld
  simp only [Bool.and_eq_true, Bool.not_eq_true'] at hpends
  obtain ⟨⟨⟨⟨⟨hactive, hauto⟩, hensuring⟩, hdeleted⟩, hpending⟩, hcommitted⟩ := hpends
  have himmediate : t.Immediate := ⟨hactive, hauto, hensuring⟩
  refine ⟨t, ht, hactive, hauto, ?_, hpending, hcommitted⟩
  exact (Work.delete_immediate (w := ⟨s.store, t⟩) himmediate plainRun "c").trans (if_pos hdeleted)

end Session

end EntityStore
