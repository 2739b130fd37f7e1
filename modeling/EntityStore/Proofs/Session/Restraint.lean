import EntityStore.Proofs.Repair.Restraint
import EntityStore.Proofs.Session.Coverage
import EntityStore.Proofs.Session.Tending

/-!
# Repairs are never excessive, but for orders that refer to themselves

A hook takes a reference for dangling if it does not find what stands behind it. It looks in the
midst of a repair, while its own entity is out of the working set. Nothing appears while references
are repaired, so what it does not find is not there once the batch is applied either. The exception
is an order that names itself as its customer and is not committed yet: its hook reads the customer
instead of asking whether there is one, and does not find the order itself.

Main statement: `Session.repairs_have_reason`.
-/

namespace EntityStore

open Repair

namespace Work

variable {run : HookRunner} {w w' : Work}

/-- What a commit that repairs and succeeds has come to, if there was something to write. Every hook
that a pass has carried out had reason for what it did: what its entity has lost, and what has made
the entity go, is not among the committed entities once the batch is applied. Callbacks run after
that. -/
def RepairsWithReason (run : HookRunner) (w : Work) : Prop :=
  ∀ w', w.txn.isEmpty = false → w.txn.ensureIntegrity = true → w.commit run = (.ok (), w') →
    ∃ repaired mid, ensureIntegrity run (w.inState .committing) = (.ok (), repaired) ∧
      repaired.store.Delivers repaired.txn.batch repaired.txn.changeSet mid ∧
      (Callback.runAll w.txn.callbacks mid).Unmoved w'.store ∧
      ((∀ c ∈ w.txn.callbacks, c.SparesTable) →
        w'.store.backend.table = mid.backend.table) ∧
      ∀ v, Relation.ReflTransGen (NextPass run) (w.inState .committing) v →
        ∀ visit ∈ passVisits run v.beginPass,
          Warranted (Gone mid.backend.contains w.store.backend.table visit.entity) visit.before
            visit.entity (visit.outcome run)

theorem repairsWithReason (hrun : Honours run) (hw : w.OfTending) : w.RepairsWithReason run := by
  intro w' hpending hflag hcommit
  have hstart : (w.inState .committing).Tending (tendsItself · = true) (fun _ _ _ => True)
      Callback.Tending True :=
    ⟨hw.of_eq rfl rfl rfl hw.checking rfl rfl, rfl, fun _ => trivial⟩
  have hbetween := between_ensureIntegrity hrun (hstart.kept.sound accounts_tending)
  obtain ⟨repaired, mid, hrepair, hdelivers, hcalled⟩ := delivers_of_commit hpending hflag hcommit
  rw [hrepair] at hbetween
  rw [hbetween.adjusts.callbacks] at hcalled
  obtain ⟨before, hbefore, hlast⟩ := repeatPasses_ok hrepair
  have hseen : mid.backend.contains = repaired.visible := by
    funext id
    rw [← contains_writtenTable hbetween.sound, Backend.contains, hdelivers.table]
    rfl
  refine ⟨repaired, mid, hrepair, hdelivers, hcalled, fun hspares => ?_,
    fun v hv visit hvisit => ?_⟩
  · exact hcalled.table.trans (Callback.runAll_sparesTable hspares mid)
  · rw [hseen]
    exact hstart.warranted accounts_tending hrun hbefore hlast hv hvisit

end Work

namespace Session

variable {s : Session}

/-- However clients have got to their working sets, over any schema, any references and any dangling
ones to begin with, and whether modifications are ignored or not: every reference that a hook clears
in a commit that succeeds, and some reference of every entity that a hook deletes, was to something
that is not there once the batch is applied. Lines without an order aside, the only exception are
references of orders to themselves, as long as they are not committed. The same holds at the end of
a program that runs in a transaction of its own. -/
theorem repairs_have_reason (registry : Registry) (scripts : Scripts) (level : Nat) (store : Store)
    (hstore : store.Holds (tendsItself · = true)) :
    let run := (Script.hooks registry scripts).runner (level + 1)
    ∀ s, Reach run (fun _ m => m.Asks Operation.Tending) (start store) s →
      (∀ key t, s.transactions.find? key = some t → Work.RepairsWithReason run ⟨s.store, t⟩) ∧
      ∀ (name : String) (p : Program Unit), p.Asks Operation.Tending →
        (p.run run (s.store.begin name)).2.RepairsWithReason run := by
  intro run s hreach
  have hrun : Honours run := honours_script registry scripts level
  have hs := ofTending_of_reach hrun hstore hreach
  exact ⟨fun key t ht => Work.repairsWithReason hrun (hs.held ht), fun name p hp =>
    Work.repairsWithReason hrun (hs.program hrun name hp)⟩

/-- A market with a line of an order. -/
def stall : Store :=
  .new .standard (.plain [⟨"ada", .customer "Ada"⟩, ⟨"first", .order (some "ada") "1"⟩,
    ⟨"second", .order (some "second") "2"⟩, ⟨"lamp", .orderLine (some "gone") "Lamp"⟩])

/-- A program that puts the customer. -/
def welcome : Program (Result Unit) := .ask (.persist ⟨"ada", .customer "Ada"⟩) .done

/-- A client deletes the customer and puts the line into view. The customer is to come back
afterwards. -/
def depart : List Move :=
  [.begin "t" "departs", .perform "t" (.delete "ada"),
    .perform "t" (.afterCommit ⟨"welcome", fun store =>
      (store.within plainRun "welcomes" (welcome.run plainRun)).2⟩),
    .perform "t" (.persist ⟨"second", .order (some "second") "II"⟩),
    .perform "t" (.persist ⟨"lamp", .orderLine (some "gone") "Lamp"⟩)]

/-- The order of the customer forgets her, the line without an order goes, and the order that names
itself stays as it is, for it was committed before. That the customer comes back makes no
difference, for she was not there when the batch was applied. -/
theorem departure_is_repaired_with_reason :
    let s := (start stall).moves plainRun depart
    ∃ t w', s.transactions.find? "t" = some t ∧ Work.commit plainRun ⟨s.store, t⟩ = (.ok (), w') ∧
      w'.store.backend.table.toList =
        [⟨"ada", .customer "Ada"⟩, ⟨"first", .order none "1"⟩,
          ⟨"second", .order (some "second") "II"⟩] ∧
      Work.RepairsWithReason plainRun ⟨s.store, t⟩ := by
  intro s
  have hrun : Honours plainRun := honours_script .builtIn (fun _ _ => []) 0
  have hreach : Reach plainRun (fun _ m => m.Asks Operation.Tending) (start stall) s :=
    reach_moves ⟨trivial, trivial, tending_within hrun _ _ ⟨rfl, fun _ => trivial⟩, rfl, rfl,
      trivial⟩
  have hholds : stall.backend.table.toList.all tendsItself = true := by decide +kernel
  have hreason := (repairs_have_reason .builtIn (fun _ _ => []) 0 stall
    (Index.all_toList_iff.1 hholds) s hreach).1 "t"
  have hheld : (s.transactions.find? "t").any (fun t =>
      (Work.commit plainRun ⟨s.store, t⟩).1.isOk &&
        decide ((Work.commit plainRun ⟨s.store, t⟩).2.store.backend.table.toList =
          [⟨"ada", .customer "Ada"⟩, ⟨"first", .order none "1"⟩,
            ⟨"second", .order (some "second") "II"⟩])) = true := by
    decide +kernel
  obtain ⟨t, ht, hends⟩ := (Option.any_eq_true _ _).1 hheld
  rw [Bool.and_eq_true, decide_eq_true_eq] at hends
  obtain ⟨_, hcommit⟩ := Work.exists_of_isOk hends.1
  exact ⟨t, _, ht, hcommit, hends.2, hreason t ht⟩

/-- An order that names itself and is put for the first time. Its check clears the reference, though
the order is there once the commit is over. -/
theorem new_order_forgets_itself :
    let s := (start (Store.new .standard (.plain []))).moves plainRun
      [.begin "t" "t", .perform "t" (.persist ⟨"o", .order (some "o") "1"⟩)]
    ∃ t w', s.transactions.find? "t" = some t ∧ Work.commit plainRun ⟨s.store, t⟩ = (.ok (), w') ∧
      w'.store.backend.table.toList = [⟨"o", .order none "1"⟩] ∧
      ∃ visit ∈ Work.passVisits plainRun (Work.inState .committing ⟨s.store, t⟩).beginPass,
        visit.entity = ⟨"o", .order (some "o") "1"⟩ ∧
        (visit.outcome plainRun).1.body = .order none "1" := by
  intro s
  have hheld : (s.transactions.find? "t").any (fun t =>
      (Work.commit plainRun ⟨s.store, t⟩).1.isOk &&
        decide ((Work.commit plainRun ⟨s.store, t⟩).2.store.backend.table.toList =
          [⟨"o", .order none "1"⟩]) &&
        (Work.passVisits plainRun (Work.inState .committing ⟨s.store, t⟩).beginPass).any
          fun visit => decide (visit.entity = ⟨"o", .order (some "o") "1"⟩) &&
            decide ((visit.outcome plainRun).1.body = .order none "1")) = true := by
    decide +kernel
  obtain ⟨t, ht, hends⟩ := (Option.any_eq_true _ _).1 hheld
  simp only [Bool.and_eq_true, decide_eq_true_eq, List.any_eq_true] at hends
  obtain ⟨⟨hok, hleft⟩, hvisit⟩ := hends
  obtain ⟨_, hcommit⟩ := Work.exists_of_isOk hok
  exact ⟨t, _, ht, hcommit, hleft, hvisit⟩

end Session

end EntityStore
