import EntityStore.Proofs.Hook.Script
import EntityStore.Proofs.Session.Overlay
import EntityStore.Proofs.Transaction.Signature
import EntityStore.Proofs.Transaction.Visits
import Mathlib.Data.List.Nodup

/-!
# Nothing is written unchecked

What a commit writes is what the last pass of its repair has left. That pass has left the ids as
they were, so every entity of the batch was to be put when it began, and nothing was deleted while
it ran. Hence it has checked every entity of the batch, and every visible one that referred to a
deleted id, once and with success (`Work.examined_of_lastPass`). Hooks may do to the working set
whatever they like; what they leave undone by it is not the last pass.

They have two ways around it (`Session.ways_around_checks`). An entity is checked as it stands when
its turn comes, and hooks that run later may still change it in ways that the signature does not
show. And a callback that a hook has run at once may remove an entity from the committed ones before
its turn comes. Where callbacks leave these alone, no check removes any (`Work.Sparing.keeps`).

Main statement: `Session.nothing_is_written_unchecked`.
-/

namespace EntityStore

namespace Work

variable {hooks : Hooks} {level : Nat} {w w' before repaired : Work}

theorem isSome_candidate?_of_overlay {id : EntityId} {e : Entity} (h : w.overlay id = some e) :
    (w.candidate? id).isSome = true := by
  rw [overlay] at h
  split at h
  · rename_i hput
    simp [candidate?, hput]
  · split at h
    · cases h
    · simp [candidate?, h]

/-! ## What callbacks may do to the committed entities -/

/-- Hooks that leave the committed entities alone during the passes of a commit. -/
def Sparing (run : HookRunner) : Prop :=
  ∀ hook e (w : Work), w.txn.Repairing →
    (run hook e w).2.store.backend.table = w.store.backend.table

theorem Sparing.perform {run : HookRunner} (hook : Sparing run) (haccrues : Accruing run)
    (h : w.txn.Repairing) {op : Operation} (hop : op.Registers Callback.SparesTable) :
    (op.perform run w).2.store.backend.table = w.store.backend.table := by
  cases op with
  | persist e =>
    rw [Operation.perform, persist_repairing h]
    split <;> rfl
  | modified e field value =>
    rw [Operation.perform, modified_repairing h]
    split <;> rfl
  | delete id =>
    rw [Operation.perform, delete_repairing h]
    split <;> rfl
  | deleteEntity e =>
    have hhook := hook .delete e w h
    rcases w.deleteEntity_cases run e with ⟨err, heq⟩ | heq <;> rw [Operation.perform, heq]
    · exact hhook
    · rw [delete_repairing (haccrues .delete e w h).repairing]
      split <;> exact hhook
  | commit => rw [Operation.perform, commit_repairing h]
  | rollback => rw [Operation.perform, rollback_repairing h]
  | afterCommit c =>
    rw [Operation.perform, afterCommit]
    split
    · exact hop c rfl w.store
    · rfl
  | _ => rfl

theorem sparing_of_ask (h : hooks.Ask (Operation.Registers Callback.SparesTable)) (level : Nat) :
    Sparing (hooks.runner level) := by
  induction level with
  | zero => exact fun _ _ _ _ => rfl
  | succ level ih =>
    intro hook e w hw
    have haccrues := hooks.accruing level
    exact ((h hook e).run_preserves
      (I := fun v => v.txn.Repairing ∧ v.store.backend.table = w.store.backend.table)
      (fun op hop v hv => ⟨(haccrues.perform hv.1 op).repairing,
        (ih.perform haccrues hv.1 hop).trans hv.2⟩) ⟨hw, rfl⟩).2

/-- Hooks that leave the committed entities alone remove none of them in a pass. -/
theorem Sparing.keeps {run : HookRunner} (hook : Sparing run) (haccrues : Accruing run)
    (h : w.txn.Repairing) {visit : Visit} (hvisit : visit ∈ passVisits run w) (id : EntityId) :
    ¬ visit.Removes run id := by
  rintro ⟨hbefore, hafter⟩
  have hsince := ((haccrues.passRelation.passVisits w visit hvisit).since h).repairing
  have htable := hook .check visit.entity (visit.before.checkOut visit.entity.id)
    ⟨hsince.state, hsince.ensuring⟩
  rw [Visit.outcome, Backend.contains, htable] at hafter
  exact absurd (hbefore.symm.trans hafter) (by simp)

/-! ## The last pass -/

/-- What a pass has checked that left the ids as they were. Each entity of the batch was checked
once, and so was each entity that was visible when the pass looked for what the deletions affect,
and referred to a deleted id, unless another check has removed it from the committed ones since,
before its turn. All checks have succeeded, none has set off another, and nothing was deleted. -/
structure Examined (run alone : HookRunner) (before repaired : Work) : Prop where
  written : ∀ e ∈ repaired.txn.batch.modified,
    (Visit.ids (passVisits run before.beginPass)).count e.id = 1
  referring : ∀ e, (firstHalf run before.beginPass).2.overlay e.id = some e →
    ∀ ref ∈ e.references, (firstHalf run before.beginPass).2.txn.deleted.contains ref = true →
      (Visit.ids (passVisits run before.beginPass)).count e.id = 1 ∨
        ∃ visit ∈ Visit.beforeTurn e.id (secondVisits run before.beginPass),
          visit.Removes run e.id
  succeeded : ∀ visit ∈ passVisits run before.beginPass, (visit.outcome run).1.result = .ok ()
  alone : ∀ visit ∈ passVisits run before.beginPass, visit.outcome run = visit.outcome alone
  steady : ∀ visit ∈ passVisits run before.beginPass,
    visit.before.txn.deleted = before.txn.deleted
  deleted : repaired.txn.deleted = before.txn.deleted

/-- Where no id has a null character, the last pass of the repair of a commit has checked everything
that is written. -/
theorem examined_of_lastPass (hstate : before.txn.state = .committing)
    (hcoherent : before.txn.Coherent none) (h : LastPass (hooks.runner (level + 1)) before repaired)
    (hbefore : before.txn.Clear) (hrepaired : repaired.txn.Clear) :
    Examined (hooks.runner (level + 1)) (hooks.loneRunner level) before repaired := by
  obtain ⟨hmodified, hdeleted⟩ := h.ids hbefore hrepaired
  obtain ⟨⟨checked, after, hpass, rfl⟩, -⟩ := h
  have hgone : after.txn.deleted = before.txn.deleted := hdeleted.symm
  have hook : Accruing (hooks.runner (level + 1)) := hooks.accruing _
  have hcoherence := (coherent_repairRelation (hooks.coherent (level + 1)) none).toPassRelation
  have hbegun : before.beginPass.txn.Repairing := ⟨hstate, rfl⟩
  have hstart : before.beginPass.txn.Coherent none := ⟨hcoherent.apart, hcoherent.checking⟩
  have hvisits := hook.passRelation.passVisits before.beginPass
  have honce {id : EntityId} := List.count_eq_one_of_mem (a := id)
    (nodup_passVisits (hooks.runner (level + 1)) before.beginPass)
  refine ⟨fun e he => honce ?_, fun e he ref href hstruck => ?_, fun visit hvisit => ?_,
    fun visit hvisit => ?_, fun visit hvisit => ?_, hgone⟩
  · have hput : after.txn.modified.contains e.id = true :=
      Index.contains_iff_find?.2 ⟨e, Index.mem_toList_iff.1 he⟩
    have hafter := hcoherence.integrityPass before.beginPass hstart
    rw [hpass] at hafter
    exact visited_of_put hook hbegun ((hmodified e.id).trans hput) hpass (hafter.apart.alive hput)
  · have hapart := ((hcoherence.modifiedVisits before.beginPass.txn.modified.ids .empty
      before.beginPass).1 hstart).apart
    have hhalf := (hook.passRelation.modifiedVisits before.beginPass.txn.modified.ids .empty
      before.beginPass).1 hbegun
    have hpicks : (firstHalf (hooks.runner (level + 1)) before.beginPass).2.referrerQuery.picks e =
        true :=
      Bool.and_eq_true_iff.2 ⟨rfl, List.any_eq_true.2 ⟨ref, href, hstruck⟩⟩
    by_cases hkeeps : ∃ visit ∈
      Visit.beforeTurn e.id (secondVisits (hooks.runner (level + 1)) before.beginPass),
      visit.Removes (hooks.runner (level + 1)) e.id
    · exact .inr hkeeps
    refine .inl (honce (visited_of_refers hook hbegun hpass
      (fun visit hvisit hremoves => hkeeps ⟨visit, hvisit, hremoves⟩)
      ((mem_matching_iff hapart).2 ⟨he, hpicks⟩) (isSome_candidate?_of_overlay he) href hstruck ?_))
    -- what is taken away in the end was so from the beginning, and cannot be seen
    cases hd : after.txn.deleted.contains e.id with
    | false => rfl
    | true =>
      have hd' : before.txn.deleted.contains e.id = true := hgone ▸ hd
      exact absurd (he.symm.trans (overlay_of_deleted hapart (hhalf.deleted hd'))) (by simp)
  · exact (hvisits visit hvisit).succeeds (by rw [hpass])
  · have hsince := ((hvisits visit hvisit).since hbegun).repairing
    exact hooks.check_alone level visit.entity ⟨hsince.state, hsince.ensuring⟩
  · have hsince := (hvisits visit hvisit).since hbegun
    have honward := (hvisits visit hvisit).onward hsince.repairing
    rw [hpass] at honward
    refine OrderedMap.ext_contains fun id => Bool.eq_iff_iff.2 ⟨fun hid => ?_, hsince.deleted⟩
    exact hgone ▸ honward.deleted hid

/-- What a commit that repairs and succeeds has come to, if there was something to write: after some
passes comes the last, which has checked everything, and what it leaves is handed to the backend
before the callbacks run. -/
def WritesExamined (hooks : Hooks) (level : Nat) (w : Work) : Prop :=
  ∀ w', w.txn.isEmpty = false → w.txn.ensureIntegrity = true →
    w.commit (hooks.runner (level + 1)) = (.ok (), w') →
    ∃ before repaired mid,
      Relation.ReflTransGen (NextPass (hooks.runner (level + 1))) (w.inState .committing) before ∧
      LastPass (hooks.runner (level + 1)) before repaired ∧
      repaired.store.Delivers repaired.txn.batch repaired.txn.changeSet mid ∧
      (Callback.runAll repaired.txn.callbacks mid).Unmoved w'.store ∧
      (before.txn.Clear → repaired.txn.Clear →
        Examined (hooks.runner (level + 1)) (hooks.loneRunner level) before repaired)

theorem delivers_of_commit {run : HookRunner} (hpending : w.txn.isEmpty = false)
    (hflag : w.txn.ensureIntegrity = true) (h : w.commit run = (.ok (), w')) :
    ∃ repaired mid, ensureIntegrity run (w.inState .committing) = (.ok (), repaired) ∧
      repaired.store.Delivers repaired.txn.batch repaired.txn.changeSet mid ∧
      (Callback.runAll repaired.txn.callbacks mid).Unmoved w'.store := by
  obtain ⟨repaired, mid, u, hhands, hended⟩ := handsOver_of_commit hpending h
  exact ⟨repaired, mid, hhands.repair hflag, hhands.delivers, hhands.called.trans hended⟩

theorem writesExamined (hw : w.txn.Coherent none) (hooks : Hooks) (level : Nat) :
    w.WritesExamined hooks level := by
  intro w' hpending hflag hcommit
  obtain ⟨repaired, mid, hrepair, hdelivers, hcalled⟩ := delivers_of_commit hpending hflag hcommit
  obtain ⟨before, hbetween, hlast⟩ := repeatPasses_ok hrepair
  have hook : Accruing (hooks.runner (level + 1)) := hooks.accruing _
  have hcoherence := coherent_repairRelation (hooks.coherent (level + 1)) none
  obtain ⟨hstate, hcoherent⟩ := holds_between
    (I := fun v => v.txn.state = .committing ∧ v.txn.Coherent none)
    (fun v hv => ⟨(hook.integrityPass (w := v.beginPass) ⟨hv.1, rfl⟩).repairing.state,
      hcoherence.markedPass v hv.2⟩)
    (fun v hv => ⟨hv.1, hcoherence.restart v hv.2⟩) hbetween ⟨rfl, hw.apart, hw.checking⟩
  exact ⟨before, repaired, mid, hbetween, hlast, hdelivers, hcalled,
    examined_of_lastPass hstate hcoherent hlast⟩

/-! ## Ways around the checks -/

/-- A commit that writes, repairs and succeeds, and whose first pass is the last. -/
structure EndsAtOnce (run : HookRunner) (w repaired : Work) : Prop where
  pending : w.txn.isEmpty = false
  repairs : w.txn.ensureIntegrity = true
  succeeds : (w.commit run).1.isOk = true
  last : LastPass run (w.inState .committing) repaired
  begun : w.txn.Clear
  ended : repaired.txn.Clear

/-- What the first pass of a commit leaves. -/
def afterFirstPass (run : HookRunner) (w : Work) : Work :=
  (integrityPass run (w.inState .committing).beginPass).2.endPass

/-- Whether the first pass of a commit is the last, as carrying it out shows. -/
def endsAtOnce (run : HookRunner) (w : Work) : Bool :=
  !w.txn.isEmpty && w.txn.ensureIntegrity && (w.commit run).1.isOk &&
    (integrityPass run (w.inState .committing).beginPass).1.isOk &&
    decide ((w.afterFirstPass run).txn.signature = w.txn.signature) && decide w.txn.Clear &&
    decide (w.afterFirstPass run).txn.Clear

theorem EndsAtOnce.of_run {run : HookRunner} (h : w.endsAtOnce run = true) :
    EndsAtOnce run w (w.afterFirstPass run) := by
  simp only [endsAtOnce, Bool.and_eq_true, Bool.not_eq_true', decide_eq_true_eq] at h
  obtain ⟨⟨⟨⟨⟨⟨hpending, hflag⟩, hok⟩, hpass⟩, hsame⟩, hbegun⟩, hended⟩ := h
  exact ⟨hpending, hflag, hok, .of_isOk hpass hsame, hbegun, hended⟩

/-- A commit whose last pass has not checked an entity that was visible when it looked for what the
deletions affect, and referred to a deleted id. -/
def Overlooks (run : HookRunner) (w : Work) (e : Entity) : Prop :=
  let begun := (w.inState .committing).beginPass
  let half := (firstHalf run begun).2
  (∃ repaired, EndsAtOnce run w repaired) ∧ half.overlay e.id = some e ∧
    (∃ ref ∈ e.references, half.txn.deleted.contains ref = true) ∧
    e.id ∉ Visit.ids (passVisits run begun)

/-- A commit that writes an entity that was never checked as it is written, and whose check would
have failed. -/
def WritesUnseen (run : HookRunner) (w : Work) (e : Entity) : Prop :=
  ∃ repaired, EndsAtOnce run w repaired ∧ e ∈ repaired.txn.batch.modified ∧
    (∀ visit ∈ passVisits run (w.inState .committing).beginPass, visit.entity ≠ e) ∧
    (run .check e (repaired.checkOut e.id)).1.result ≠ .ok ()

end Work

namespace Session

variable {s : Session}

/-- However clients have got to the working set of a transaction and whatever hooks do, a commit
that repairs and succeeds writes only entities that the last pass has checked, each once and with
success. The same pass has checked all visible entities that referred to a deleted id, apart from
those that another check has removed from the committed ones before their turn, and has deleted
nothing more. The same holds at the end of a program that runs in a transaction of its own. No check
removes anything if the callbacks that hooks register leave the committed entities alone. -/
theorem nothing_is_written_unchecked (hooks : Hooks) (level : Nat) (store : Store)
    (hreach : Reach (hooks.runner (level + 1)) (fun _ _ => True) (start store) s) :
    (∀ key t, s.transactions.find? key = some t →
      Work.WritesExamined hooks level ⟨s.store, t⟩) ∧
    (∀ (name : String) (p : Program Unit),
      (p.run (hooks.runner (level + 1)) (s.store.begin name)).2.WritesExamined hooks level) ∧
    (hooks.Ask (Operation.Registers Callback.SparesTable) → ∀ w : Work, w.txn.Repairing →
      ∀ visit ∈ Work.passVisits (hooks.runner (level + 1)) w, ∀ id,
        ¬ visit.Removes (hooks.runner (level + 1)) id) := by
  have hs : s.Coherent := hreach.invariant (I := Coherent)
    (fun h => by simp [start] at h) fun _ m hu _ => hu.move m
  refine ⟨fun key t ht => Work.writesExamined (hs ht) hooks level, fun name p =>
    Work.writesExamined (hooks.coherent_run _ p (s.store.coherent_begin name)) hooks level,
    fun hask w hw visit hvisit id => ?_⟩
  exact (Work.sparing_of_ask hask _).keeps (hooks.accruing _) hw hvisit id

/-- The check of a probe deletes a customer, and keeps the signal to itself. -/
def stealthy : Scripts
  | "probe", .check => [⟨none, none, true, .delete "ada"⟩]
  | _, _ => []

/-- A client puts the probe. -/
def plant : List Move := [.begin "t" "plants", .perform "t" (.persist ⟨"probe", .probe .empty⟩)]

/-- The order of the customer is checked in the pass in which she disappears. This changes it, so
another pass follows, which checks both again and is the last. -/
theorem stealthy_deletion_is_followed_up :
    let run := (Script.hooks .builtIn stealthy).runner 1
    let s := (start market).moves run plant
    ∃ t w' before repaired, s.transactions.find? "t" = some t ∧
      Work.commit run ⟨s.store, t⟩ = (.ok (), w') ∧ w'.store.statistics.integrityPasses = 2 ∧
      repaired.txn.batch.modified.map (·.id) = ["first", "probe"] ∧
      Work.Examined run ((Script.hooks .builtIn stealthy).loneRunner 0) before repaired := by
  intro run s
  have hreach : Reach run (fun _ _ => True) (start market) s :=
    reach_moves ⟨trivial, trivial, trivial⟩
  have hwrites := (nothing_is_written_unchecked _ 0 market hreach).1 "t"
  have hheld : (s.transactions.find? "t").any (fun t =>
      let w : Work := ⟨s.store, t⟩
      let first := (Work.integrityPass run (w.inState .committing).beginPass).2.endPass
      let second := (Work.integrityPass run first.beginPass).2.endPass
      !t.isEmpty && t.ensureIntegrity && (w.commit run).1.isOk &&
        decide ((w.commit run).2.store.statistics.integrityPasses = 2) &&
        (Work.integrityPass run (w.inState .committing).beginPass).1.isOk &&
        (Work.integrityPass run first.beginPass).1.isOk &&
        decide (first.txn.signature ≠ t.signature) &&
        decide (second.txn.signature = first.txn.signature) &&
        decide (first.txn.Clear) && decide (second.txn.Clear) &&
        decide (second.txn.batch.modified.map (·.id) = ["first", "probe"])) = true := by
    decide +kernel
  obtain ⟨t, ht, hends⟩ := (Option.any_eq_true _ _).1 hheld
  simp only [Bool.and_eq_true, Bool.not_eq_true', decide_eq_true_eq] at hends
  obtain ⟨⟨⟨⟨⟨⟨⟨⟨⟨⟨hpending, hflag⟩, hok⟩, hpasses⟩, hfirst⟩, hsecond⟩, hdiffers⟩, hsame⟩,
    hclear⟩, hclear'⟩, hbatch⟩ := hends
  obtain ⟨_, hcommit⟩ := Work.exists_of_isOk hok
  obtain ⟨before, repaired, -, hbetween, hlast, -, -, hexamined⟩ :=
    hwrites t ht _ hpending hflag hcommit
  -- the second pass is the last, so that it is the one spoken of
  have hnext : Work.NextPass run (Work.inState .committing ⟨s.store, t⟩) _ :=
    .of_isOk hfirst hdiffers
  obtain ⟨rfl, rfl⟩ := Work.lastPass_unique hbetween hlast (.single hnext)
    (.of_isOk hsecond hsame)
  exact ⟨t, _, _, _, ht, hcommit, hpasses, hbatch, hexamined hclear hclear'⟩

/-- A customer with two orders. -/
def desk : Store :=
  .new .standard (.plain [⟨"ada", .customer "Ada"⟩, ⟨"first", .order (some "ada") "1"⟩,
    ⟨"second", .order (some "ada") "2"⟩])

def cancel : Program (Result Unit) := .ask (.delete "second") .done

/-- The check of the first order registers a callback that deletes the second one elsewhere. No
other hook does anything. -/
def cancelling : Hooks
  | .check, ⟨"first", body⟩ =>
    .ask (.afterCommit ⟨"cancel", fun store =>
      (store.within plainRun "cancels" (cancel.run plainRun)).2⟩) fun _ => .done ⟨body, .ok ()⟩
  | _, e => .done ⟨e.body, .ok ()⟩

/-- A client deletes the customer, and from then on has callbacks run at once. -/
def windUp : List Move :=
  [.begin "t" "closes", .perform "t" (.delete "ada"), .perform "t" (.setAutoCommit true)]

def meter (level : String) : Entity := ⟨"meter", .probe (.ofList [("level", some level)])⟩

/-- The check of the meter reads its level as a number, and that of the noise writes something else
into it. -/
def spoiling : Scripts
  | "meter", .check => [⟨none, none, false, .bump "level" 0⟩]
  | "noise", .check => [⟨none, none, false, .setOther "meter" "level" (some "high")⟩]
  | _, _ => []

/-- A client tells of the change before it is made, and puts the noise. -/
def spoil : List Move :=
  [.begin "t" "spoils", .perform "t" (.modified (meter "1") "level" (some "high")),
    .perform "t" (.persist ⟨"noise", .probe .empty⟩)]

/-- The second order is gone when its turn comes, and the level is written after the meter has been
checked. -/
theorem ways_around_checks :
    (let s := (start desk).moves (cancelling.runner 1) windUp
      ∃ t, s.transactions.find? "t" = some t ∧
        Work.Overlooks (cancelling.runner 1) ⟨s.store, t⟩ ⟨"second", .order (some "ada") "2"⟩) ∧
    let run := (Script.hooks .builtIn spoiling).runner 1
    let s := (start (.new .standard (.plain [meter "1"]))).moves run spoil
    ∃ t, s.transactions.find? "t" = some t ∧ Work.WritesUnseen run ⟨s.store, t⟩ (meter "high") := by
  constructor
  · intro s
    have hheld : (s.transactions.find? "t").any (fun t =>
        let w : Work := ⟨s.store, t⟩
        let begun := (w.inState .committing).beginPass
        let half := (Work.firstHalf (cancelling.runner 1) begun).2
        w.endsAtOnce (cancelling.runner 1) &&
          decide (half.overlay "second" = some ⟨"second", .order (some "ada") "2"⟩) &&
          half.txn.deleted.contains "ada" &&
          decide ("second" ∉ Work.Visit.ids (Work.passVisits (cancelling.runner 1) begun))) =
        true := by
      decide +kernel
    obtain ⟨t, ht, hends⟩ := (Option.any_eq_true _ _).1 hheld
    simp only [Bool.and_eq_true, decide_eq_true_eq] at hends
    obtain ⟨⟨⟨hends, hvisible⟩, hstruck⟩, hunchecked⟩ := hends
    exact ⟨t, ht, ⟨_, .of_run hends⟩, hvisible, ⟨"ada", List.mem_cons_self, hstruck⟩, hunchecked⟩
  · intro run s
    have hheld : (s.transactions.find? "t").any (fun t =>
        let w : Work := ⟨s.store, t⟩
        let repaired := w.afterFirstPass run
        w.endsAtOnce run && decide (meter "high" ∈ repaired.txn.batch.modified) &&
          decide (∀ visit ∈ Work.passVisits run (w.inState .committing).beginPass,
            visit.entity ≠ meter "high") &&
          decide ((run .check (meter "high") (repaired.checkOut "meter")).1.result ≠ .ok ())) =
        true := by
      decide +kernel
    obtain ⟨t, ht, hends⟩ := (Option.any_eq_true _ _).1 hheld
    simp only [Bool.and_eq_true, decide_eq_true_eq] at hends
    obtain ⟨⟨⟨hends, hwritten⟩, hunseen⟩, hfails⟩ := hends
    exact ⟨t, ht, _, .of_run hends, hwritten, hunseen, hfails⟩

end Session

end EntityStore
