import EntityStore.Proofs.Repair.Cascade

/-!
# Repeated passes converge

A pass over records that is cut short has deleted one more of them, and after a pass that has
completed nothing is left to mend. So there are at most as many restarts as there are records, and
the second pass that completes is the last (`Cascading.ensureIntegrity`).
-/

namespace EntityStore

open Repair

namespace Work

variable {run : HookRunner} {u v w w' : Work} {ix : Index} {asked : List EntityId} {id : EntityId}
  {e : Entity}

/-! ## One pass -/

/-- A unit of work in a pass over records that began with another. -/
structure Mending (u : Work) (ix : Index) (asked : List EntityId) (w : Work) : Prop where
  underway : u.Underway w
  cascading : w.Cascading ix asked
  checking : w.txn.checking = none

/-- Nothing that was deleted comes back. -/
def Deletes (w w' : Work) : Prop :=
  ∀ id, w.txn.deleted.contains id = true → w'.txn.deleted.contains id = true

theorem Deletes.alive (h : w.Deletes w') (hd : w'.txn.deleted.contains id = false) :
    w.txn.deleted.contains id = false := by
  cases hgone : w.txn.deleted.contains id with
  | false => rfl
  | true =>
    rw [h id hgone] at hd
    cases hd

section Pass

variable (hrun : Honours run) (hix : Intact ix) (hu : u.Heeds)
include hrun hix hu

/-- What one check of a record comes to. -/
theorem Mending.check (h : u.Mending ix asked w) (hcand : w.candidate? id = some e)
    (hd : w.txn.deleted.contains id = false) :
    u.Mending ix asked (w.checkEntity run id).2 ∧ w.Deletes (w.checkEntity run id).2 ∧
      CheckResult w id e (w.checkEntity run id) := by
  have hresult := checkEntity_result hrun (h.underway.inPass hu)
    (h.underway.sound.candidate hcand) hcand hd
  have hunderway := h.underway.checkEntity hrun id
  obtain ⟨hcascading, hdeletes, -⟩ := h.cascading.check hix hcand hresult
  refine ⟨⟨hunderway, hcascading, ?_⟩, hdeletes, hresult⟩
  generalize w.checkEntity run id = outcome at hresult
  cases hresult with
  | kept hv htxn _ => rw [htxn]
  | mended _ hv htxn _ => rw [htxn]
  | removed hv htxn _ => rw [htxn]
  | refused hv htxn _ => rw [htxn]

theorem mending_passRelation :
    PassRelation run fun w w' => u.Mending ix asked w → u.Mending ix asked w' ∧ w.Deletes w' where
  refl w h := ⟨h, fun _ hi => hi⟩
  trans h h' hw := by
    obtain ⟨hv, hdeletes⟩ := h hw
    obtain ⟨hw', hdeletes'⟩ := h' hv
    exact ⟨hw', fun i hi => hdeletes' i (hdeletes i hi)⟩
  check id w hdue hw := by
    have hd : w.txn.deleted.contains id = false := hdue.elim hw.underway.sound.alive fun h => h
    cases hcand : w.candidate? id with
    | none =>
      rw [checkEntity, hcand]
      exact ⟨hw, fun _ hi => hi⟩
    | some e =>
      obtain ⟨hafter, hdeletes, -⟩ := hw.check hrun hix hu hcand hd
      exact ⟨hafter, hdeletes⟩
  query w hw := ⟨⟨
    hw.underway.next (.count w _) (hw.underway.sound.of_eq rfl rfl rfl) rfl ⟨rfl, rfl⟩,
    ⟨hw.cascading.table, hw.cascading.struck, hw.cascading.doomed, hw.cascading.shed⟩,
    hw.checking⟩, fun _ hi => hi⟩

/-- A pass that is cut short has deleted one more record. -/
theorem Mending.integrityPass_error {err : StoreError} (hw : u.Mending ix asked w)
    (h : integrityPass run w = (.error err, w')) :
    err = .integrityRestart ∧ ∃ id, ix.contains id = true ∧ w.txn.deleted.contains id = false ∧
      w'.txn.deleted.contains id = true := by
  obtain ⟨id, v, hv, hdue, herr⟩ := (mending_passRelation hrun hix hu).integrityPass_error h
  obtain ⟨hv, hdeletes⟩ := hv hw
  have hd : v.txn.deleted.contains id = false := hdue.elim hv.underway.sound.alive fun h => h
  cases hcand : v.candidate? id with
  | none => simp [checkEntity, hcand] at herr
  | some e =>
    obtain ⟨-, -, hresult⟩ := hv.check hrun hix hu hcand hd
    rw [herr] at hresult
    obtain ⟨-, -, hcut⟩ := hv.cascading.check hix hcand hresult
    obtain ⟨rfl, hgone⟩ := hcut err rfl
    obtain ⟨x, hx, -⟩ := hv.cascading.candidate hix hcand
    exact ⟨rfl, id, Index.contains_iff_find?.2 ⟨x, hx⟩, hdeletes.alive hd, hgone⟩

/-- Where nothing is left to mend, a check changes nothing. -/
theorem Mending.checkEntity_settled (hw : u.Mending ix asked w) (hset : w.Settled) {v : Work}
    (hv : u.Mending ix asked v) (htxn : v.txn = w.txn) {id : EntityId}
    (hd : v.txn.deleted.contains id = false) :
    (v.checkEntity run id).1 = .ok () ∧ u.Mending ix asked (v.checkEntity run id).2 ∧
      (v.checkEntity run id).2.txn = w.txn := by
  cases hcand : v.candidate? id with
  | none =>
    rw [checkEntity, hcand]
    exact ⟨rfl, hv, htxn⟩
  | some e =>
    have hrecord : isRecord e = true := by
      obtain ⟨x, -, i, type, schema, fields, fields', rfl, rfl, -⟩ :=
        hv.cascading.candidate hix hcand
      rfl
    have htable : v.store.backend.table = w.store.backend.table :=
      hv.cascading.table.trans hw.cascading.table.symm
    have hcandidate : v.candidate? = w.candidate? := candidate?_congr (by rw [htxn]) htable
    have hvisible : v.visible = w.visible := visible_congr (by rw [htxn]) (by rw [htxn]) htable
    have hkeep : verdict v.visible (v.found id) e = .keep := by
      refine (verdict_record _ _ hrecord).2 ?_
      rw [hvisible]
      rw [hcandidate] at hcand
      exact hset hcand (by rw [← htxn, hd])
    obtain ⟨hafter, -, hresult⟩ := hv.check hrun hix hu hcand hd
    generalize v.checkEntity run id = outcome at hafter hresult ⊢
    have hchecking := hw.checking
    cases hresult with
    | kept _ htxn' _ =>
      refine ⟨rfl, hafter, ?_⟩
      rw [htxn', htxn, ← hchecking]
    | mended _ hv' _ _ => rw [hkeep] at hv'; cases hv'
    | removed hv' _ _ => rw [hkeep] at hv'; cases hv'
    | refused hv' _ _ => rw [hkeep] at hv'; cases hv'

/-- Where nothing is left to mend, a pass completes and changes nothing. -/
theorem Mending.integrityPass_settled (hw : u.Mending ix asked w) (hset : w.Settled) :
    ∃ checked w', integrityPass run w = (.ok checked, w') ∧ u.Mending ix asked w' ∧
      w'.txn = w.txn := by
  have check : ∀ {id v}, u.Mending ix asked v ∧ v.txn = w.txn →
      (v.txn.modified.contains id = true ∨ v.txn.deleted.contains id = false) →
      (v.checkEntity run id).1 = .ok () ∧ u.Mending ix asked (v.checkEntity run id).2 ∧
        (v.checkEntity run id).2.txn = w.txn := by
    rintro id v ⟨hv, htxn⟩ hdue
    exact hw.checkEntity_settled hrun hix hu hset hv htxn
      (hdue.elim hv.underway.sound.alive fun h => h)
  have hrelation : PassRelation run fun v v' =>
      u.Mending ix asked v ∧ v.txn = w.txn → u.Mending ix asked v' ∧ v'.txn = w.txn := by
    refine ⟨fun _ h => h, fun h h' hv => h' (h hv), fun id v hdue hv => (check hv hdue).2, ?_⟩
    intro v hv
    exact ⟨((mending_passRelation hrun hix hu).query v hv.1).1, hv.2⟩
  have hafter := hrelation.integrityPass w ⟨hw, rfl⟩
  cases h : integrityPass run w with
  | mk result w' =>
    rw [h] at hafter
    cases result with
    | ok checked => exact ⟨checked, w', rfl, hafter.1, hafter.2⟩
    | error err =>
      obtain ⟨id, v, hv, hdue, herr⟩ := hrelation.integrityPass_error h
      have hok := (check (hv ⟨hw, rfl⟩) hdue).1
      rw [herr] at hok
      cases hok

end Pass

/-! ## Many passes -/

/-- A unit of work over records between the passes of a repair that began with another. -/
structure Resting (u : Work) (ix : Index) (asked : List EntityId) (w : Work) : Prop where
  between : u.Between w
  cascading : w.Cascading ix asked
  checking : w.txn.checking = none

theorem Resting.beginPass (h : u.Resting ix asked w) : u.Mending ix asked w.beginPass :=
  ⟨h.between.beginPass,
    ⟨h.cascading.table, h.cascading.struck, h.cascading.doomed, h.cascading.shed⟩, h.checking⟩

theorem Mending.endPass (h : u.Mending ix asked w) : u.Resting ix asked w.endPass :=
  ⟨h.underway.endPass,
    ⟨h.cascading.table, h.cascading.struck, h.cascading.doomed, h.cascading.shed⟩, h.checking⟩

theorem Resting.count (h : u.Resting ix asked w) (counter : Statistics → Statistics) :
    u.Resting ix asked (w.count counter) :=
  ⟨h.between.count _,
    ⟨h.cascading.table, h.cascading.struck, h.cascading.doomed, h.cascading.shed⟩, h.checking⟩

/-- How many of the ids are not deleted. -/
def remaining (ix : Index) (w : Work) : Nat := ix.ids.countP fun id => !w.txn.deleted.contains id

theorem countP_lt_countP {α : Type} {p q : α → Bool} {l : List α}
    (h : ∀ x, p x = true → q x = true) {x : α} (hx : x ∈ l) (hp : p x = false) (hq : q x = true) :
    l.countP p < l.countP q := by
  induction l with
  | nil => cases hx
  | cons y rest ih =>
    have hrest : rest.countP p ≤ rest.countP q := List.countP_mono_left fun z _ hz => h z hz
    rw [List.countP_cons, List.countP_cons]
    rcases List.mem_cons.1 hx with rfl | hx
    · simp only [hp, hq, if_true, Bool.false_eq_true, if_false]
      omega
    · have := ih hx
      cases hy : p y with
      | true => simp only [h y hy, if_true]; omega
      | false => simp only [Bool.false_eq_true, if_false]; omega

theorem remaining_le (ix : Index) (h : w.Deletes w') : remaining ix w' ≤ remaining ix w :=
  List.countP_mono_left fun _ _ hi => by
    rw [Bool.not_eq_true'] at hi ⊢
    exact h.alive hi

theorem remaining_lt (h : w.Deletes w') (hin : ix.contains id = true)
    (hd : w.txn.deleted.contains id = false) (hgone : w'.txn.deleted.contains id = true) :
    remaining ix w' < remaining ix w :=
  countP_lt_countP
    (fun _ hi => by
      rw [Bool.not_eq_true'] at hi ⊢
      exact h.alive hi)
    (Index.mem_ids_iff.2 hin) (by rw [hgone]; rfl) (by rw [hd]; rfl)

theorem remaining_le_size (ix : Index) (w : Work) : remaining ix w ≤ ix.size := by
  rw [← Index.length_ids]
  exact List.countP_le_length

section Passes

variable (hrun : Honours run) (hix : Intact ix) (hu : u.Heeds)
include hrun hix hu

theorem Resting.restart {err : StoreError} (hw : u.Resting ix asked w)
    (h : integrityPass run w.beginPass = (.error err, v)) :
    err = .integrityRestart ∧ u.Resting ix asked v.endPass ∧
      remaining ix v.endPass < remaining ix w := by
  have hbegin := hw.beginPass
  obtain ⟨hv, hdeletes⟩ := (mending_passRelation hrun hix hu).integrityPass w.beginPass hbegin
  rw [h] at hv hdeletes
  obtain ⟨rfl, id, hin, hd, hgone⟩ := hbegin.integrityPass_error hrun hix hu h
  have hless : remaining ix v.endPass < remaining ix w := remaining_lt hdeletes hin hd hgone
  exact ⟨rfl, hv.endPass, hless⟩

theorem Resting.complete {checked : OrderedSet} (hw : u.Resting ix asked w)
    (h : integrityPass run w.beginPass = (.ok checked, v)) :
    u.Resting ix asked v.endPass ∧ v.endPass.Settled := by
  have hbegin := hw.beginPass
  obtain ⟨hv, -⟩ := (mending_passRelation hrun hix hu).integrityPass w.beginPass hbegin
  rw [h] at hv
  obtain ⟨-, hclean⟩ := integrityPass_ok hrun hbegin.underway.sound (hbegin.underway.inPass hu) h
  exact ⟨hv.endPass, hv.cascading.settled hix hclean⟩

/-- Each pass that is cut short leaves fewer records, and the second that completes changes
nothing. -/
theorem Resting.converges :
    Converges run (fun _ _ w => u.Resting ix asked w) Settled (remaining ix) where
  cut hw h := by
    obtain ⟨herr, hv, hless⟩ := hw.restart hrun hix hu h
    exact ⟨herr, hv.count _, hless⟩
  completed hw h := by
    obtain ⟨hv, hset⟩ := hw.complete hrun hix hu h
    exact ⟨hv, .inr hset⟩
  settled {passes restarts w} hw hset := by
    obtain ⟨checked, v, heq, -, htxn⟩ := hw.beginPass.integrityPass_settled hrun hix hu hset
    refine ⟨checked, v, heq, ?_⟩
    change v.txn.signature = w.txn.signature
    rw [htxn]
    rfl

theorem Resting.markedPass (hw : u.Resting ix asked w) :
    u.Resting ix asked (integrityPass run w.beginPass).2.endPass :=
  ((mending_passRelation hrun hix hu).integrityPass w.beginPass hw.beginPass).1.endPass

end Passes

/-- The repair of a store of records comes to an end if its limits leave room for it. -/
theorem Cascading.ensureIntegrity (hrun : Honours run) (hix : Intact ix) (hs : w.Sound)
    (hw : w.Cascading ix asked) (hchecking : w.txn.checking = none) (hh : w.Heeds)
    (hroom : w.HasRoom) :
    ∃ w', Work.ensureIntegrity run w = (.ok (), w') ∧ w.Between w' ∧ w'.Cascading ix asked ∧
      w'.Settled := by
  have hsize : remaining ix w ≤ w.store.backend.size := by
    rw [Backend.size, hw.table]
    exact remaining_le_size ix w
  have hstart : w.Resting ix asked w := ⟨⟨hs, ⟨rfl, rfl⟩, .ofStore w (.refl _)⟩, hw, hchecking⟩
  obtain ⟨_, _, w', heq, -⟩ :=
    (Resting.converges hrun hix hh).ensureIntegrity hstart hroom (by omega)
  obtain ⟨before, checked, after, hbefore, hpass, -, rfl⟩ :=
    ensureIntegrity_ok (I := w.Resting ix asked) (fun _ h => h.markedPass hrun hix hh)
      (fun _ h => h.count _) hstart heq
  obtain ⟨hrest, hset⟩ := hbefore.complete hrun hix hh hpass
  exact ⟨after.endPass, heq, hrest.between, hrest.cascading, hset⟩

end Work

end EntityStore
