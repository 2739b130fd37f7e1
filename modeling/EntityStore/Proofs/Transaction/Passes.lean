import EntityStore.Index.Lemmas
import EntityStore.Transaction.Integrity
import Mathlib.Logic.Relation

/-!
# What passes are made of

An integrity pass is a row of checks with one query in between, and a repair is a row of passes.
Hence what checks keep as long as they succeed holds at the end of a pass that completes, and up to
the check that fails in one that does not (`Sustains.integrityPass`). A reflexive and transitive
relation that every check and the query respect holds from the beginning of a pass to its end
(`PassRelation.integrityPass`), and one that the marks of a pass respect as well holds from the
beginning of a repair to its end (`RepairRelation.ensureIntegrity`). A repair that succeeds ends
with the first pass that has completed and left the signature as it was (`repeatPasses_ok`), and one
in which passes that are cut short lessen a measure succeeds (`Converges.ensureIntegrity`), if its
limits leave room for that. They do exactly if the limit of passes cut short fits in a machine word
(`Fits.hasRoom`, `maxRestarts_lt_of_not_fits`).
-/

namespace EntityStore.Work

/-- A relation that the parts of a pass respect. -/
structure PassRelation (run : HookRunner) (R : Work → Work → Prop) : Prop where
  refl : ∀ w, R w w
  trans : ∀ {u v w}, R u v → R v w → R u w
  /-- Nothing that is deleted is checked, unless it is to be put all the same. -/
  check : ∀ id w, w.txn.modified.contains id = true ∨ w.txn.deleted.contains id = false →
    R w (checkEntity run id w).2
  query : ∀ w, R w (w.count Statistics.countQuery)

/-- A relation that the parts of a repair respect. -/
structure RepairRelation (run : HookRunner) (R : Work → Work → Prop) : Prop extends
    PassRelation run R where
  beginPass : ∀ w, R w w.beginPass
  endPass : ∀ w, R w w.endPass
  restart : ∀ w, R w (w.count Statistics.countRestart)

variable {run : HookRunner} {R : Work → Work → Prop} {I : Work → Prop}
  {due : EntityId → Work → Prop} {w : Work}

/-! ## Rows of checks -/

/-- The ids that the deletions affect, in the order in which a pass goes through them. -/
def affected (w : Work) : List EntityId :=
  (w.affectedBy (w.matching w.referrerQuery)).values.flatMap OrderedMap.keys

/-- The first half of a pass, after which it looks for what the deletions affect. -/
def firstHalf (run : HookRunner) (w : Work) : Result OrderedSet × Work :=
  checkModified run w.txn.modified.ids .empty w

theorem integrityPass_eq (run : HookRunner) (w : Work) :
    integrityPass run w =
      match firstHalf run w with
      | (.error err, u) => (.error err, u)
      | (.ok checked, u) => checkAffected run u.affected checked (u.count Statistics.countQuery) :=
  rfl

/-- What holds between the checks of a pass as long as they succeed, and what is known of an id
whose check is due. -/
structure Sustains (run : HookRunner) (I : Work → Prop) (due : EntityId → Work → Prop) : Prop where
  first : ∀ {id w}, I w → w.txn.modified.contains id = true → due id w
  next : ∀ {id u w}, I u → id ∈ u.affected → I w → w.txn.deleted.contains id = false → due id w
  check : ∀ {id w w'}, I w → due id w → checkEntity run id w = (.ok (), w') → I w'
  query : ∀ {w}, I w → I (w.count Statistics.countQuery)

/-- The end of a row of checks: all have succeeded, or one that was due has failed. -/
inductive Ends (run : HookRunner) (I : Work → Prop) (due : EntityId → Work → Prop) :
    Result OrderedSet × Work → Prop
  | completed {checked w} : I w → Ends run I due (.ok checked, w)
  | cut {id w err w'} : I w → due id w → checkEntity run id w = (.error err, w') →
      Ends run I due (.error err, w')

namespace Sustains

theorem checkModified (h : Sustains run I due) (ids : List EntityId) (checked : OrderedSet)
    (hw : I w) : Ends run I due (Work.checkModified run ids checked w) := by
  induction ids generalizing checked w with
  | nil => exact .completed hw
  | cons id rest ih =>
    rw [Work.checkModified]
    split
    · rename_i hmod
      have hdue := h.first hw hmod
      split
      · rename_i after hafter
        exact ih _ (h.check hw hdue hafter)
      · rename_i err after hafter
        exact .cut hw hdue hafter
    · exact ih checked hw

theorem checkAffected (h : Sustains run I due) {ids : List EntityId} (checked : OrderedSet)
    {u : Work} (hu : I u) (hids : ∀ id ∈ ids, id ∈ u.affected) (hw : I w) :
    Ends run I due (Work.checkAffected run ids checked w) := by
  induction ids generalizing checked w with
  | nil => exact .completed hw
  | cons id rest ih =>
    have hrest := fun i hi => hids i (List.mem_cons_of_mem _ hi)
    rw [Work.checkAffected]
    split
    · exact ih checked hrest hw
    · rename_i hskip
      rw [Bool.not_eq_true, Bool.or_eq_false_iff] at hskip
      have hdue := h.next hu (hids id List.mem_cons_self) hw hskip.1
      split
      · rename_i after hafter
        exact ih _ hrest (h.check hw hdue hafter)
      · rename_i err after hafter
        exact .cut hw hdue hafter

/-- What checks that succeed keep holds throughout a pass. -/
theorem integrityPass (h : Sustains run I due) (hw : I w) :
    Ends run I due (Work.integrityPass run w) := by
  rw [Work.integrityPass]
  have hfirst := h.checkModified w.txn.modified.ids .empty hw
  split
  · rename_i err u hu
    rw [hu] at hfirst
    cases hfirst with
    | cut hv hdue heq => exact .cut hv hdue heq
  · rename_i checked u hu
    rw [hu] at hfirst
    cases hfirst with
    | completed hu => exact h.checkAffected checked hu (fun _ hi => hi) (h.query hu)

end Sustains

/-! ## What checks settle -/

/-- What holds between the checks of a pass as long as they succeed, and what each of them settles
about the entity under its id. Such checks delete nothing, bring in nothing but their own entity,
and leave settled what was. -/
structure Settles (run : HookRunner) (I : Work → Prop) (settled : Work → EntityId → Prop) :
    Prop where
  alive : ∀ {id w}, I w → w.txn.modified.contains id = true → w.txn.deleted.contains id = false
  check : ∀ {id w w'}, I w → w.txn.deleted.contains id = false →
    checkEntity run id w = (.ok (), w') →
      I w' ∧ w'.txn.deleted = w.txn.deleted ∧ settled w' id ∧
        ∀ other, id ≠ other → (settled w other → settled w' other) ∧
          (w'.txn.modified.contains other = true → w.txn.modified.contains other = true)
  query : ∀ {w}, I w → I (w.count Statistics.countQuery) ∧
    ∀ id, settled w id → settled (w.count Statistics.countQuery) id

/-- What is checked is settled, and whatever is to be put is checked or due. -/
structure Covered (settled : Work → EntityId → Prop) (w : Work) (checked : OrderedSet)
    (due : List EntityId) : Prop where
  settled : ∀ {id}, checked.contains id = true → settled w id
  pending : ∀ {id}, w.txn.modified.contains id = true → checked.contains id = true ∨ id ∈ due

namespace Settles

variable {settled : Work → EntityId → Prop} {ids due : List EntityId} {id : EntityId}
  {checked checked' : OrderedSet} {w' : Work}

theorem covered (h : Settles run I settled) (hw : I w)
    (hcovered : Covered settled w checked (id :: due)) (hd : w.txn.deleted.contains id = false)
    (heq : checkEntity run id w = (.ok (), w')) :
    I w' ∧ w'.txn.deleted = w.txn.deleted ∧ Covered settled w' (checked.add id) due := by
  obtain ⟨hw', hdeleted, hself, hother⟩ := h.check hw hd heq
  refine ⟨hw', hdeleted, fun {i} hi => ?_, fun {i} hi => ?_⟩
  · by_cases hne : id = i
    · exact hne ▸ hself
    · have hchecked : checked.contains i = true := by
        simpa [OrderedMap.contains_add, hne] using hi
      exact (hother i hne).1 (hcovered.settled hchecked)
  · rw [OrderedMap.contains_add]
    by_cases hne : id = i
    · simp [hne]
    · rcases hcovered.pending ((hother i hne).2 hi) with hc | hc
      · exact .inl (by simp [hc])
      · exact .inr ((List.mem_cons.1 hc).resolve_left (Ne.symm hne))

theorem checkModified (h : Settles run I settled) (hw : I w)
    (hcovered : Covered settled w checked ids)
    (heq : Work.checkModified run ids checked w = (.ok checked', w')) :
    I w' ∧ w'.txn.deleted = w.txn.deleted ∧ Covered settled w' checked' [] := by
  induction ids generalizing checked w with
  | nil =>
    cases heq
    exact ⟨hw, rfl, hcovered⟩
  | cons id rest ih =>
    rw [Work.checkModified] at heq
    split at heq
    · rename_i hmod
      split at heq
      · rename_i u hu
        obtain ⟨hu', hdeleted, hnext⟩ := h.covered hw hcovered (h.alive hw hmod) hu
        obtain ⟨hfinal, hdeleted', hall⟩ := ih hu' hnext heq
        exact ⟨hfinal, hdeleted'.trans hdeleted, hall⟩
      · cases heq
    · rename_i hmod
      refine ih hw ⟨hcovered.settled, fun {i} hi => ?_⟩ heq
      -- an id on the list that is no longer to be put needs no check
      rcases hcovered.pending hi with hc | hc
      · exact .inl hc
      · rcases List.mem_cons.1 hc with rfl | hc
        · exact absurd hi hmod
        · exact .inr hc

theorem checkAffected (h : Settles run I settled) (hw : I w)
    (hcovered : Covered settled w checked [])
    (heq : Work.checkAffected run ids checked w = (.ok checked', w')) :
    I w' ∧ w'.txn.deleted = w.txn.deleted ∧ Covered settled w' checked' [] ∧
      (∀ id, checked.contains id = true → checked'.contains id = true) ∧
      ∀ id ∈ ids, w.txn.deleted.contains id = false → checked'.contains id = true := by
  induction ids generalizing checked w with
  | nil =>
    cases heq
    exact ⟨hw, rfl, hcovered, fun _ hc => hc, by simp⟩
  | cons id rest ih =>
    rw [Work.checkAffected] at heq
    split at heq
    · rename_i hskip
      -- a skipped id is deleted or has been checked in this pass, and nothing undoes either
      obtain ⟨hfinal, hdeleted, hall, hkept, hrest⟩ := ih hw hcovered heq
      refine ⟨hfinal, hdeleted, hall, hkept, fun i hi hd => ?_⟩
      rcases List.mem_cons.1 hi with rfl | hi
      · rw [hd, Bool.false_or] at hskip
        exact hkept i hskip
      · exact hrest i hi hd
    · rename_i hdue
      rw [Bool.not_eq_true, Bool.or_eq_false_iff] at hdue
      split at heq
      · rename_i u hu
        have hnext : Covered settled w checked [id] :=
          ⟨hcovered.settled, fun hi => (hcovered.pending hi).imp_right (by simp)⟩
        obtain ⟨hu', hdeleted, hnext'⟩ := h.covered hw hnext hdue.1 hu
        obtain ⟨hfinal, hdeleted', hall, hkept, hrest⟩ := ih hu' hnext' heq
        refine ⟨hfinal, hdeleted'.trans hdeleted, hall, fun i hi => hkept i ?_, fun i hi hd => ?_⟩
        · rw [OrderedMap.contains_add, hi, Bool.or_true]
        · rcases List.mem_cons.1 hi with rfl | hi
          · exact hkept i (by simp [OrderedMap.contains_add])
          · exact hrest i hi (by rw [hdeleted, hd])
      · cases heq

/-- A pass that completes has settled everything that is to be put, and everything that was to be
put or was affected after the first half of it. -/
theorem integrityPass (h : Settles run I settled) (hw : I w)
    (heq : Work.integrityPass run w = (.ok checked, w')) :
    I w' ∧ w'.txn.deleted = w.txn.deleted ∧
      (∀ id, w'.txn.modified.contains id = true → settled w' id) ∧
      ∃ u, I u ∧ u.txn.deleted = w.txn.deleted ∧
        (∀ id, u.txn.modified.contains id = true → settled w' id) ∧
        ∀ id ∈ u.affected, w.txn.deleted.contains id = false → settled w' id := by
  rw [Work.integrityPass] at heq
  split at heq
  · cases heq
  · rename_i first u hu
    have hstart : Covered settled w .empty w.txn.modified.ids :=
      ⟨fun hi => by simp [OrderedMap.contains] at hi, fun hi => .inr (Index.mem_ids_iff.2 hi)⟩
    obtain ⟨hhalf, hdeleted, hcovered⟩ := h.checkModified hw hstart hu
    obtain ⟨hqueried, hkeeps⟩ := h.query hhalf
    obtain ⟨hfinal, hdeleted', hall, hkept, hrest⟩ := h.checkAffected hqueried
      ⟨fun hi => hkeeps _ (hcovered.settled hi), hcovered.pending⟩ heq
    refine ⟨hfinal, hdeleted'.trans hdeleted,
      fun id hid => hall.settled ((hall.pending hid).resolve_right (by simp)), u, hhalf, hdeleted,
      fun id hid => hall.settled (hkept id ?_), fun id hid hd => hall.settled (hrest id hid ?_)⟩
    · exact (hcovered.pending hid).resolve_right (by simp)
    · exact (congrArg (·.contains id) hdeleted).trans hd

end Settles

namespace PassRelation

theorem sustains (hR : PassRelation run R) (w : Work) :
    Sustains run (R w) fun id v =>
      v.txn.modified.contains id = true ∨ v.txn.deleted.contains id = false where
  first _ hmod := .inl hmod
  next _ _ _ halive := .inr halive
  check {id v v'} hv hdue heq := by
    have hcheck := hR.check id v hdue
    rw [heq] at hcheck
    exact hR.trans hv hcheck
  query {v} hv := hR.trans hv (hR.query v)

/-- What the parts of a pass respect holds from its beginning to its end. -/
theorem integrityPass (hR : PassRelation run R) (w : Work) :
    R w (Work.integrityPass run w).2 := by
  have hends := (hR.sustains w).integrityPass (hR.refl w)
  generalize Work.integrityPass run w = out at hends
  cases hends with
  | completed hw' => exact hw'
  | @cut id v err w' hv hdue heq =>
    have hcheck := hR.check id v hdue
    rw [heq] at hcheck
    exact hR.trans hv hcheck

theorem integrityPass_error (hR : PassRelation run R) {w w' : Work} {err : StoreError}
    (h : Work.integrityPass run w = (.error err, w')) :
    ∃ id v, R w v ∧ (v.txn.modified.contains id = true ∨ v.txn.deleted.contains id = false) ∧
      Work.checkEntity run id v = (.error err, w') := by
  have hends := (hR.sustains w).integrityPass (hR.refl w)
  rw [h] at hends
  cases hends with
  | cut hv hdue heq => exact ⟨_, _, hv, hdue, heq⟩

end PassRelation

/-! ## Rows of passes -/

/-- What holds between passes holds when they are over, however they end. -/
theorem repeatPasses_preserves {I : Work → Prop}
    (hpass : ∀ w, I w → I (integrityPass run w.beginPass).2.endPass)
    (hrestart : ∀ w, I w → I (w.count Statistics.countRestart))
    {maxPasses maxRestarts passes restarts bound : Nat} {w : Work} (hw : I w) :
    I (repeatPasses run maxPasses maxRestarts passes restarts w bound).2 := by
  induction bound generalizing passes restarts w with
  | zero => exact hw
  | succ bound ih =>
    rw [repeatPasses]
    have hafter := hpass w hw
    split
    · exact hw
    · split
      · rename_i after heq
        rw [heq] at hafter
        exact ih (hrestart _ hafter)
      · rename_i err after _ heq
        rw [heq] at hafter
        exact hafter
      · rename_i checked after heq
        rw [heq] at hafter
        split
        · exact hafter
        · exact ih hafter

namespace RepairRelation

theorem markedPass (hR : RepairRelation run R) (w : Work) :
    R w (Work.integrityPass run w.beginPass).2.endPass :=
  hR.trans (hR.beginPass w)
    (hR.trans (hR.toPassRelation.integrityPass w.beginPass) (hR.endPass _))

theorem repeatPasses (hR : RepairRelation run R) (maxPasses maxRestarts passes restarts : Nat)
    (w : Work) (bound : Nat) :
    R w (Work.repeatPasses run maxPasses maxRestarts passes restarts w bound).2 :=
  repeatPasses_preserves (fun _ hu => hR.trans hu (hR.markedPass _))
    (fun _ hu => hR.trans hu (hR.restart _)) (hR.refl w)

/-- What the parts of a repair respect holds from its beginning to its end. -/
theorem ensureIntegrity (hR : RepairRelation run R) (w : Work) :
    R w (Work.ensureIntegrity run w).2 :=
  hR.repeatPasses _ _ _ _ w _

end RepairRelation

/-- One pass after which another follows: it has completed and changed the signature, or it was cut
short. -/
inductive NextPass (run : HookRunner) (w : Work) : Work → Prop
  | again {checked after} : integrityPass run w.beginPass = (.ok checked, after) →
      after.endPass.txn.signature ≠ w.txn.signature → NextPass run w after.endPass
  | restart {after} : integrityPass run w.beginPass = (.error .integrityRestart, after) →
      NextPass run w (after.endPass.count Statistics.countRestart)

theorem NextPass.of_completed {v : Work} {checked : OrderedSet} (h : NextPass run w v)
    (hok : (integrityPass run w.beginPass).1 = .ok checked) :
    v = (integrityPass run w.beginPass).2.endPass ∧ v.txn.signature ≠ w.txn.signature := by
  cases h with
  | again heq hdiffers =>
    rw [heq]
    exact ⟨rfl, hdiffers⟩
  | restart heq =>
    rw [heq] at hok
    cases hok

/-- The last pass of a repair: it completes and leaves the signature as it was. -/
structure LastPass (run : HookRunner) (w w' : Work) : Prop where
  completes : ∃ checked after, integrityPass run w.beginPass = (.ok checked, after) ∧
    w' = after.endPass
  signature : w'.txn.signature = w.txn.signature

theorem exists_of_isOk {α : Type} {out : Result α × Work} (h : out.1.isOk = true) :
    ∃ a, out = (.ok a, out.2) := by
  obtain ⟨result, after⟩ := out
  cases result with
  | ok a => exact ⟨a, rfl⟩
  | error err => cases h

theorem NextPass.of_isOk (h : (integrityPass run w.beginPass).1.isOk = true)
    (hdiffers : (integrityPass run w.beginPass).2.endPass.txn.signature ≠ w.txn.signature) :
    NextPass run w (integrityPass run w.beginPass).2.endPass := by
  obtain ⟨checked, heq⟩ := exists_of_isOk h
  exact .again heq hdiffers

theorem LastPass.of_isOk (h : (integrityPass run w.beginPass).1.isOk = true)
    (hsame : (integrityPass run w.beginPass).2.endPass.txn.signature = w.txn.signature) :
    LastPass run w (integrityPass run w.beginPass).2.endPass := by
  obtain ⟨checked, heq⟩ := exists_of_isOk h
  exact ⟨⟨checked, _, heq, rfl⟩, hsame⟩

theorem LastPass.not_next {v w' : Work} (h : LastPass run w w') : ¬ NextPass run w v := by
  obtain ⟨⟨checked, after, heq, rfl⟩, hsame⟩ := h
  intro hnext
  obtain ⟨rfl, hdiffers⟩ := hnext.of_completed (by rw [heq])
  rw [heq] at hdiffers
  exact hdiffers hsame

theorem NextPass.unique {u v : Work} (h : NextPass run w u) (h' : NextPass run w v) : u = v := by
  cases h with
  | again heq =>
    rw [(h'.of_completed (by rw [heq])).1, heq]
  | restart heq =>
    cases h' with
    | again heq' =>
      rw [heq] at heq'
      cases heq'
    | restart heq' =>
      rw [heq] at heq'
      cases heq'
      rfl

theorem LastPass.unique {u v : Work} (h : LastPass run w u) (h' : LastPass run w v) : u = v := by
  obtain ⟨checked, after, heq, rfl⟩ := h.completes
  obtain ⟨checked', after', heq', rfl⟩ := h'.completes
  rw [heq] at heq'
  cases heq'
  rfl

theorem reaches_last {v before w' : Work} (h : Relation.ReflTransGen (NextPass run) w v)
    (hbefore : Relation.ReflTransGen (NextPass run) w before) (hlast : LastPass run before w') :
    Relation.ReflTransGen (NextPass run) v before := by
  induction h using Relation.ReflTransGen.head_induction_on with
  | refl => exact hbefore
  | head hx _ ih =>
    rcases hbefore.cases_head with rfl | ⟨y, hy, hrest⟩
    · exact absurd hx hlast.not_next
    · exact ih (hx.unique hy ▸ hrest)

theorem lastPass_unique {before before' u v : Work}
    (h : Relation.ReflTransGen (NextPass run) w before) (hlast : LastPass run before u)
    (h' : Relation.ReflTransGen (NextPass run) w before') (hlast' : LastPass run before' v) :
    before = before' ∧ u = v := by
  rcases (reaches_last h h' hlast').cases_head with rfl | ⟨x, hx, -⟩
  · exact ⟨rfl, hlast.unique hlast'⟩
  · exact absurd hx hlast.not_next

/-- A repair that succeeds is a row of passes that ends with the first one that has completed and
left the signature as it was. -/
theorem repeatPasses_ok {maxPasses maxRestarts passes restarts bound : Nat} {w w' : Work}
    (h : repeatPasses run maxPasses maxRestarts passes restarts w bound = (.ok (), w')) :
    ∃ before, Relation.ReflTransGen (NextPass run) w before ∧ LastPass run before w' := by
  induction bound generalizing passes restarts w with
  | zero => simp [repeatPasses] at h
  | succ bound ih =>
    rw [repeatPasses] at h
    split at h
    · simp at h
    · split at h
      · rename_i after heq
        obtain ⟨before, hrest, hlast⟩ := ih h
        exact ⟨before, hrest.head (.restart heq), hlast⟩
      · simp at h
      · rename_i checked after heq
        split at h
        · rename_i hsame
          obtain rfl := (Prod.mk.inj h).2
          exact ⟨w, .refl, ⟨checked, after, heq, rfl⟩, hsame⟩
        · rename_i hdiffers
          obtain ⟨before, hrest, hlast⟩ := ih h
          exact ⟨before, hrest.head (.again heq hdiffers), hlast⟩

/-- What holds between passes holds after each of a row of passes. -/
theorem holds_between {I : Work → Prop}
    (hpass : ∀ w, I w → I (integrityPass run w.beginPass).2.endPass)
    (hrestart : ∀ w, I w → I (w.count Statistics.countRestart)) {w v : Work}
    (h : Relation.ReflTransGen (NextPass run) w v) (hw : I w) : I v := by
  induction h with
  | refl => exact hw
  | @tail u v _ hstep hu =>
    have hafter := hpass u hu
    cases hstep with
    | again heq =>
      rw [heq] at hafter
      exact hafter
    | restart heq =>
      rw [heq] at hafter
      exact hrestart _ hafter

/-- What holds after some pass, and between passes from then on, holds after the last one. -/
theorem LastPass.holds {I : Work → Prop}
    (hpass : ∀ w, I w → I (integrityPass run w.beginPass).2.endPass)
    (hrestart : ∀ w, I w → I (w.count Statistics.countRestart)) {v before w' : Work}
    (hlast : LastPass run before w') (h : Relation.ReflTransGen (NextPass run) v before)
    (hv : I (integrityPass run v.beginPass).2.endPass) : I w' := by
  obtain ⟨⟨checked, after, heq, rfl⟩, -⟩ := hlast
  rcases h.cases_head with rfl | ⟨u, hnext, hrest⟩
  · rw [heq] at hv
    exact hv
  · have hu : I u := by
      cases hnext with
      | again heq' =>
        rw [heq'] at hv
        exact hv
      | restart heq' =>
        rw [heq'] at hv
        exact hrestart _ hv
    have hafter := hpass before (holds_between hpass hrestart hrest hu)
    rw [heq] at hafter
    exact hafter

theorem ensureIntegrity_ok {I : Work → Prop}
    (hpass : ∀ w, I w → I (integrityPass run w.beginPass).2.endPass)
    (hrestart : ∀ w, I w → I (w.count Statistics.countRestart)) {w w' : Work} (hw : I w)
    (h : ensureIntegrity run w = (.ok (), w')) :
    ∃ before checked after, I before ∧
      integrityPass run before.beginPass = (.ok checked, after) ∧
      after.endPass.txn.signature = before.txn.signature ∧ w' = after.endPass := by
  obtain ⟨before, hbetween, ⟨checked, after, hpass', rfl⟩, hsignature⟩ := repeatPasses_ok h
  exact ⟨before, checked, after, holds_between hpass hrestart hbetween hw, hpass', hsignature, rfl⟩

/-! ## The limits of a repair -/

/-- The limit of passes cut short fits in a machine word. -/
def Fits (w : Work) : Prop :=
  w.store.backend.size + w.txn.modified.size + w.maxPasses < UInt64.size

/-- Two passes may complete, and for each entity there is one may be cut short. -/
structure HasRoom (w : Work) : Prop where
  passes : 2 ≤ w.maxPasses
  restarts : w.store.backend.size + w.txn.modified.size ≤ w.maxRestarts

theorem maxRestarts_le (w : Work) :
    w.maxRestarts ≤ w.store.backend.size + w.txn.modified.size + w.maxPasses := by
  simp only [maxRestarts]
  split
  · exact Nat.mod_le _ _
  · exact Nat.le_refl _

theorem maxRestarts_congr {w' : Work} (hpasses : w'.maxPasses = w.maxPasses)
    (hsize : w'.store.backend.size = w.store.backend.size)
    (hmodified : w'.txn.modified = w.txn.modified) : w'.maxRestarts = w.maxRestarts := by
  simp only [maxRestarts, hpasses, hsize, hmodified]

theorem HasRoom.congr {w' : Work} (h : w.HasRoom) (hpasses : w'.maxPasses = w.maxPasses)
    (hsize : w'.store.backend.size = w.store.backend.size)
    (hmodified : w'.txn.modified = w.txn.modified) : w'.HasRoom := by
  refine ⟨hpasses ▸ h.passes, ?_⟩
  rw [hsize, hmodified, maxRestarts_congr hpasses hsize hmodified]
  exact h.restarts

theorem Fits.maxRestarts (h : w.Fits) :
    w.maxRestarts = w.store.backend.size + w.txn.modified.size + w.maxPasses := by
  simp only [Work.maxRestarts, Nat.mod_eq_of_lt h, ite_self]

theorem Fits.hasRoom (h : w.Fits) (hpasses : 2 ≤ w.maxPasses) : w.HasRoom :=
  ⟨hpasses, h.maxRestarts ▸ Nat.le_add_right _ _⟩

/-- A limit that does not fit is too low for all entities to be deleted one by one. -/
theorem maxRestarts_lt_of_not_fits (h : ¬ w.Fits) (hword : w.maxPasses < UInt64.size)
    (hmemory : w.store.backend.size + w.txn.modified.size < UInt64.size / 2) :
    w.maxRestarts < w.store.backend.size + w.txn.modified.size := by
  rw [Fits, Nat.not_lt] at h
  simp only [Work.maxRestarts, if_pos hmemory]
  rw [Nat.mod_eq_sub_mod h, Nat.mod_eq_of_lt (by omega)]
  omega

/-- If few passes may complete, any number of entities leaves room. -/
theorem hasRoom_of_few (hpasses : 2 ≤ w.maxPasses) (hfew : w.maxPasses ≤ UInt64.size / 2) :
    w.HasRoom := by
  refine ⟨hpasses, ?_⟩
  simp only [Work.maxRestarts]
  split
  · rw [Nat.mod_eq_of_lt (by omega)]
    exact Nat.le_add_right _ _
  · exact Nat.le_add_right _ _

/-! ## Repairs that come to an end -/

/-- A pass that is cut short lessens a measure, and when one has completed, either the signature is
as it was or everything is settled, and then another pass leaves the signature as it is. What holds
between passes may depend on how many have completed and how many were cut short. -/
structure Converges (run : HookRunner) (I : Nat → Nat → Work → Prop) (settled : Work → Prop)
    (measure : Work → Nat) : Prop where
  cut : ∀ {passes restarts w err w'}, I passes restarts w →
    integrityPass run w.beginPass = (.error err, w') →
    err = .integrityRestart ∧ I passes (restarts + 1) (w'.endPass.count Statistics.countRestart) ∧
      measure (w'.endPass.count Statistics.countRestart) < measure w
  completed : ∀ {passes restarts w checked w'}, I passes restarts w →
    integrityPass run w.beginPass = (.ok checked, w') →
    I (passes + 1) restarts w'.endPass ∧
      (w'.endPass.txn.signature = w.txn.signature ∨ settled w'.endPass)
  settled : ∀ {passes restarts w}, I passes restarts w → settled w → ∃ checked w',
    integrityPass run w.beginPass = (.ok checked, w') ∧ w'.endPass.txn.signature = w.txn.signature

namespace Converges

variable {I : Nat → Nat → Work → Prop} {settled : Work → Prop} {measure : Work → Nat}
  {passes restarts : Nat}

theorem repeatPasses_settled (h : Converges run I settled measure)
    {maxPasses maxRestarts bound : Nat} (hw : I passes restarts w) (hset : settled w)
    (hpasses : passes < maxPasses) (hrestarts : restarts ≤ maxRestarts) (hbound : 0 < bound) :
    ∃ w', repeatPasses run maxPasses maxRestarts passes restarts w bound = (.ok (), w') ∧
      I (passes + 1) restarts w' := by
  obtain ⟨bound, rfl⟩ : ∃ n, bound = n + 1 := ⟨bound - 1, by omega⟩
  obtain ⟨checked, w', heq, hsame⟩ := h.settled hw hset
  refine ⟨w'.endPass, ?_, (h.completed hw heq).1⟩
  rw [repeatPasses, if_neg (by omega), heq]
  exact if_pos hsame

/-- A repair ends with the first or second pass that completes. -/
theorem repeatPasses (h : Converges run I settled measure) (maxPasses maxRestarts bound : Nat)
    (hw : I passes restarts w) (hpasses : passes + 2 ≤ maxPasses)
    (hrestarts : restarts + measure w ≤ maxRestarts) (hbound : measure w + 2 ≤ bound) :
    ∃ completed cut w',
      Work.repeatPasses run maxPasses maxRestarts passes restarts w bound = (.ok (), w') ∧
      I completed cut w' ∧ completed ≤ passes + 2 ∧ cut ≤ restarts + measure w := by
  -- the bound outlasts the passes that are cut short, each of which lessens the measure, and the
  -- two that complete
  induction bound generalizing restarts w with
  | zero => omega
  | succ bound ih =>
    rw [Work.repeatPasses, if_neg (by omega)]
    cases hpass : integrityPass run w.beginPass with
    | mk result v =>
      cases result with
      | ok checked =>
        obtain ⟨hv, hset⟩ := h.completed hw hpass
        dsimp only
        split
        · exact ⟨_, _, v.endPass, rfl, hv, by omega, by omega⟩
        · rename_i hdiffers
          obtain ⟨w', heq, hw'⟩ := h.repeatPasses_settled hv (hset.resolve_left hdiffers)
            (show passes + 1 < maxPasses by omega) (show restarts ≤ maxRestarts by omega)
            (show 0 < bound by omega)
          exact ⟨_, _, w', heq, hw', by omega, by omega⟩
      | error err =>
        obtain ⟨rfl, hv, hless⟩ := h.cut hw hpass
        obtain ⟨completed, cut, w', heq, hw', hcompleted, hcut⟩ := ih hv (by omega) (by omega)
        exact ⟨completed, cut, w', heq, hw', hcompleted, by omega⟩

/-- A repair comes to an end if its limits leave room for it and the measure is no larger than there
are entities. -/
theorem ensureIntegrity (h : Converges run I settled measure) (hw : I 0 0 w) (hroom : w.HasRoom)
    (hmeasure : measure w ≤ w.store.backend.size + w.txn.modified.size) :
    ∃ completed cut w', Work.ensureIntegrity run w = (.ok (), w') ∧ I completed cut w' ∧
      completed ≤ 2 ∧ cut ≤ measure w := by
  have hpasses := hroom.passes
  have hrestarts := Nat.le_trans hmeasure hroom.restarts
  obtain ⟨completed, cut, w', heq, hw', hcompleted, hcut⟩ := h.repeatPasses w.maxPasses
    w.maxRestarts (w.maxPasses + w.maxRestarts + 1) hw (by omega) (by omega) (by omega)
  exact ⟨completed, cut, w', heq, hw', by omega, by omega⟩

end Converges

end EntityStore.Work
