import EntityStore.Proofs.Repair.Pass
import EntityStore.Proofs.Transaction.Accrual

/-!
# The checks of a pass

A pass has a trace: the entities that it checks, each with the unit of work in which its check
begins. No entity is checked twice (`nodup_passVisits`), and whatever the parts of a pass respect
holds up to each check and on from it (`PassRelation.passVisits`). A pass that fails does so in one
of its checks (`exists_visit_of_error`). A pass of a commit that completes has checked every entity
that was to be put when it began, and every visible one that referred to a deleted id when it looked
for them, apart from those that were deleted in the meantime or removed from the committed ones
before their turn (`visited_of_put`, `visited_of_refers`).
-/

namespace EntityStore.Work

/-- The check of an entity, and the unit of work in which it begins. -/
structure Visit where
  entity : Entity
  before : Work

namespace Visit

/-- What the hook of the entity leaves. -/
def outcome (run : HookRunner) (v : Visit) : HookOutcome × Work :=
  run .check v.entity (v.before.checkOut v.entity.id)

/-- The check takes an entity from the committed ones. -/
def Removes (run : HookRunner) (v : Visit) (id : EntityId) : Prop :=
  v.before.store.backend.contains id = true ∧ (v.outcome run).2.store.backend.contains id = false

/-- The ids of the entities that are checked, in order. -/
def ids (visits : List Visit) : List EntityId := visits.map (·.entity.id)

/-- The checks before the turn of an entity, or all if its turn never comes. -/
def beforeTurn (id : EntityId) (visits : List Visit) : List Visit :=
  visits.takeWhile (·.entity.id ≠ id)

end Visit

/-- The check of the entity under an id, if there is one. -/
def visits (w : Work) (id : EntityId) : List Visit := ((w.candidate? id).map (⟨·, w⟩)).toList

/-- The checks of a list of entities that are still to be put. -/
def modifiedVisits (run : HookRunner) : List EntityId → Work → List Visit
  | [], _ => []
  | id :: rest, w =>
    if w.txn.modified.contains id then
      w.visits id ++
        match checkEntity run id w with
        | (.ok (), w) => modifiedVisits run rest w
        | (.error _, _) => []
    else modifiedVisits run rest w

/-- The checks of a list of entities that are neither deleted nor checked already. -/
def affectedVisits (run : HookRunner) : List EntityId → OrderedSet → Work → List Visit
  | [], _, _ => []
  | id :: rest, checked, w =>
    if w.txn.deleted.contains id || checked.contains id then affectedVisits run rest checked w
    else
      w.visits id ++
        match checkEntity run id w with
        | (.ok (), w) => affectedVisits run rest (checked.add id) w
        | (.error _, _) => []

/-- The checks of the second half of a pass. -/
def secondVisits (run : HookRunner) (w : Work) : List Visit :=
  match firstHalf run w with
  | (.ok checked, u) => affectedVisits run u.affected checked (u.count Statistics.countQuery)
  | (.error _, _) => []

/-- The checks of a pass. -/
def passVisits (run : HookRunner) (w : Work) : List Visit :=
  modifiedVisits run w.txn.modified.ids w ++ secondVisits run w

variable {run : HookRunner} {R : Work → Work → Prop} {u v w w' : Work} {id other : EntityId}
  {visit : Visit} {ids : List EntityId} {checked checked' : OrderedSet}
  {out : Result OrderedSet × Work}

theorem mem_visits (h : visit ∈ w.visits id) :
    w.candidate? id = some visit.entity ∧ visit.entity.id = id ∧ visit.before = w := by
  obtain ⟨e, he, rfl⟩ := Option.map_eq_some_iff.1 (Option.mem_toList.1 h)
  exact ⟨he, id_of_candidate? he, rfl⟩

theorem visits_sublist (w : Work) (id : EntityId) : (Visit.ids (w.visits id)).Sublist [id] := by
  cases h : w.candidate? id with
  | none => simp [Visit.ids, visits, h]
  | some e => simp [Visit.ids, visits, h, id_of_candidate? h]

theorem mem_ids_visits (h : (w.candidate? id).isSome = true) : id ∈ Visit.ids (w.visits id) := by
  obtain ⟨e, he⟩ := Option.isSome_iff_exists.1 h
  simp [Visit.ids, visits, he, id_of_candidate? he]

/-- The turn of an entity does not come with the check of another. -/
theorem beforeTurn_visits_append (w : Work) (hne : other ≠ id) (rest : List Visit) :
    Visit.beforeTurn id (w.visits other ++ rest) = w.visits other ++ Visit.beforeTurn id rest := by
  refine List.takeWhile_append_of_pos fun visit hvisit => ?_
  rw [(mem_visits hvisit).2.1]
  exact decide_eq_true hne

theorem Visit.ids_append (l m : List Visit) : Visit.ids (l ++ m) = Visit.ids l ++ Visit.ids m :=
  List.map_append

theorem isSome_candidate?_eq (w : Work) (id : EntityId) :
    (w.candidate? id).isSome = (w.txn.modified.contains id || w.store.backend.contains id) := by
  rw [candidate?, Option.isSome_or, Index.contains_eq_isSome, Backend.contains,
    Index.contains_eq_isSome]

theorem isSome_candidate? (h : w.txn.modified.contains id = true) :
    (w.candidate? id).isSome = true := by
  rw [isSome_candidate?_eq, h, Bool.true_or]

theorem contains_checkEntity (hkeeps : ∀ visit ∈ w.visits other, ¬ visit.Removes run id)
    (h : w.store.backend.contains id = true) :
    (w.checkEntity run other).2.store.backend.contains id = true := by
  rw [checkEntity]
  cases hcand : w.candidate? other with
  | none => exact h
  | some e =>
    obtain rfl := id_of_candidate? hcand
    have hstays := hkeeps ⟨e, w⟩ (by simp [visits, hcand])
    exact Bool.eq_true_of_not_eq_false fun hgone => hstays ⟨h, hgone⟩

/-! ## No entity is checked twice -/

theorem modifiedVisits_sublist (run : HookRunner) (ids : List EntityId) (w : Work) :
    (Visit.ids (modifiedVisits run ids w)).Sublist ids := by
  induction ids generalizing w with
  | nil => exact List.nil_sublist _
  | cons id rest ih =>
    rw [modifiedVisits]
    split
    · rw [Visit.ids_append]
      refine (w.visits_sublist id).append ?_
      split
      · exact ih _
      · exact List.nil_sublist _
    · exact (ih w).cons id

/-- The ids that the first half of a pass has checked are those it lists as checked. -/
theorem checkModified_checked (h : checkModified run ids checked w = (.ok checked', w')) :
    ∀ id, checked'.contains id = true ↔
      checked.contains id = true ∨ id ∈ Visit.ids (modifiedVisits run ids w) := by
  induction ids generalizing checked w with
  | nil =>
    cases h
    simp [modifiedVisits, Visit.ids]
  | cons id rest ih =>
    rw [checkModified] at h
    rw [modifiedVisits]
    split at h
    · rename_i hmod
      rw [if_pos hmod]
      cases hafter : checkEntity run id w with | mk result after
      rw [hafter] at h
      cases result with
      | error _ => cases h
      | ok _ =>
        have hself := mem_ids_visits (isSome_candidate? hmod)
        intro other
        rw [ih h other, Visit.ids_append, List.mem_append, OrderedMap.contains_add,
          Bool.or_eq_true, decide_eq_true_iff]
        have honly : other ∈ Visit.ids (w.visits id) → other = id := fun hmem =>
          List.mem_singleton.1 ((w.visits_sublist id).subset hmem)
        constructor
        · rintro ((rfl | hc) | hr)
          exacts [.inr (.inl hself), .inl hc, .inr (.inr hr)]
        · rintro (hc | hv | hr)
          exacts [.inl (.inr hc), .inl (.inl (honly hv).symm), .inr hr]
    · rename_i hmod
      rw [if_neg hmod]
      exact ih h

/-- The second half of a pass checks no entity twice, and none that has been checked already. -/
theorem nodup_affectedVisits (run : HookRunner) (ids : List EntityId) (checked : OrderedSet)
    (w : Work) : (Visit.ids (affectedVisits run ids checked w)).Nodup ∧
      ∀ id ∈ Visit.ids (affectedVisits run ids checked w), checked.contains id = false := by
  induction ids generalizing checked w with
  | nil => exact ⟨List.nodup_nil, by simp [affectedVisits, Visit.ids]⟩
  | cons id rest ih =>
    rw [affectedVisits]
    split
    · exact ih checked w
    · rename_i hdue
      rw [Bool.not_eq_true, Bool.or_eq_false_iff] at hdue
      have hrest : ∀ visits : List Visit, (Visit.ids visits).Nodup →
          (∀ other ∈ Visit.ids visits, (checked.add id).contains other = false) →
          (Visit.ids (w.visits id ++ visits)).Nodup ∧
            ∀ other ∈ Visit.ids (w.visits id ++ visits), checked.contains other = false := by
        intro visits hnodup hfresh
        have hapart : ∀ other ∈ Visit.ids visits, id ≠ other ∧ checked.contains other = false := by
          intro other hother
          simpa [OrderedMap.contains_add] using hfresh other hother
        have honly : ∀ other ∈ Visit.ids (w.visits id), other = id := fun other hmem =>
          List.mem_singleton.1 ((w.visits_sublist id).subset hmem)
        rw [Visit.ids_append]
        refine ⟨List.nodup_append.2 ⟨(w.visits_sublist id).nodup (by simp), hnodup,
          fun a ha b hb hab => (hapart b hb).1 ((honly a ha).symm.trans hab)⟩,
          fun other hother => ?_⟩
        rcases List.mem_append.1 hother with hmem | hmem
        · rw [honly other hmem]
          exact hdue.2
        · exact (hapart other hmem).2
      split
      · exact hrest _ (ih _ _).1 (ih _ _).2
      · exact hrest [] List.nodup_nil (by simp [Visit.ids])

/-- No entity is checked twice in a pass. -/
theorem nodup_passVisits (run : HookRunner) (w : Work) : (Visit.ids (passVisits run w)).Nodup := by
  have hfirst : (Visit.ids (modifiedVisits run w.txn.modified.ids w)).Nodup :=
    (modifiedVisits_sublist run _ w).nodup (Index.nodup_ids _)
  rw [passVisits, Visit.ids_append, secondVisits]
  split
  · rename_i checked u heq
    obtain ⟨hsecond, hfresh⟩ := nodup_affectedVisits run u.affected checked
      (u.count Statistics.countQuery)
    refine List.nodup_append.2 ⟨hfirst, hsecond, ?_⟩
    rintro id hid _ hid' rfl
    have hchecked := (checkModified_checked heq id).2 (.inr hid)
    exact absurd (hchecked.symm.trans (hfresh id hid')) (by simp)
  · simpa [Visit.ids] using hfirst

/-! ## What holds around a check -/

/-- A check in a row of checks that begins with a unit of work and comes to something. A relation
that the parts of a pass respect holds up to the check and on from it. If the row succeeds, so does
the hook. -/
structure Visit.Within (run : HookRunner) (R : Work → Work → Prop) (w : Work)
    (out : Result OrderedSet × Work) (visit : Visit) : Prop where
  since : R w visit.before
  candidate : visit.before.candidate? visit.entity.id = some visit.entity
  due : visit.before.txn.modified.contains visit.entity.id = true ∨
    visit.before.txn.deleted.contains visit.entity.id = false
  onward : R visit.before out.2
  succeeds : ∀ {checked}, out.1 = .ok checked → (visit.outcome run).1.result = .ok ()

theorem Visit.Within.later (hR : PassRelation run R) (h : R w u)
    (hvisit : visit.Within run R u out) : visit.Within run R w out :=
  ⟨hR.trans h hvisit.since, hvisit.candidate, hvisit.due, hvisit.onward, hvisit.succeeds⟩

theorem Visit.within_head (hR : PassRelation run R)
    (hdue : w.txn.modified.contains id = true ∨ w.txn.deleted.contains id = false)
    (hvisit : visit ∈ w.visits id) (honward : R (w.checkEntity run id).2 out.2)
    (hsucceeds : ∀ {checked}, out.1 = .ok checked → (w.checkEntity run id).1 = .ok ()) :
    visit.Within run R w out := by
  obtain ⟨hcand, rfl, rfl⟩ := mem_visits hvisit
  refine ⟨hR.refl _, hcand, hdue, hR.trans (hR.check _ _ hdue) honward, fun hok => ?_⟩
  have hresult := hsucceeds hok
  rw [checkEntity, hcand] at hresult
  exact hresult

namespace PassRelation

theorem modifiedVisits (hR : PassRelation run R) (ids : List EntityId) (checked : OrderedSet)
    (w : Work) : R w (checkModified run ids checked w).2 ∧
      ∀ visit ∈ modifiedVisits run ids w,
        visit.Within run R w (checkModified run ids checked w) := by
  induction ids generalizing checked w with
  | nil => exact ⟨hR.refl w, fun _ hv => absurd hv List.not_mem_nil⟩
  | cons id rest ih =>
    rw [checkModified, Work.modifiedVisits]
    by_cases hmod : w.txn.modified.contains id = true
    · rw [if_pos hmod, if_pos hmod]
      have hcheck := hR.check id w (.inl hmod)
      cases heq : checkEntity run id w with
      | mk result after =>
        rw [heq] at hcheck
        cases result with
        | ok _ =>
          obtain ⟨hrest, hvisits⟩ := ih (checked.add id) after
          refine ⟨hR.trans hcheck hrest, fun visit hvisit => ?_⟩
          rcases List.mem_append.1 hvisit with hvisit | hvisit
          · exact Visit.within_head hR (.inl hmod) hvisit (by rw [heq]; exact hrest)
              fun _ => by rw [heq]
          · exact (hvisits visit hvisit).later hR hcheck
        | error err =>
          refine ⟨hcheck, fun visit hvisit => ?_⟩
          rw [List.append_nil] at hvisit
          exact Visit.within_head hR (.inl hmod) hvisit (by rw [heq]; exact hR.refl after)
            fun hok => by cases hok
    · rw [if_neg hmod, if_neg hmod]
      exact ih checked w

theorem affectedVisits (hR : PassRelation run R) (ids : List EntityId) (checked : OrderedSet)
    (w : Work) : R w (checkAffected run ids checked w).2 ∧
      ∀ visit ∈ affectedVisits run ids checked w,
        visit.Within run R w (checkAffected run ids checked w) := by
  induction ids generalizing checked w with
  | nil => exact ⟨hR.refl w, fun _ hv => absurd hv List.not_mem_nil⟩
  | cons id rest ih =>
    rw [checkAffected, Work.affectedVisits]
    by_cases hskip : (w.txn.deleted.contains id || checked.contains id) = true
    · rw [if_pos hskip, if_pos hskip]
      exact ih checked w
    · rw [if_neg hskip, if_neg hskip]
      rw [Bool.not_eq_true, Bool.or_eq_false_iff] at hskip
      have hcheck := hR.check id w (.inr hskip.1)
      cases heq : checkEntity run id w with
      | mk result after =>
        rw [heq] at hcheck
        cases result with
        | ok _ =>
          obtain ⟨hrest, hvisits⟩ := ih (checked.add id) after
          refine ⟨hR.trans hcheck hrest, fun visit hvisit => ?_⟩
          rcases List.mem_append.1 hvisit with hvisit | hvisit
          · exact Visit.within_head hR (.inr hskip.1) hvisit (by rw [heq]; exact hrest)
              fun _ => by rw [heq]
          · exact (hvisits visit hvisit).later hR hcheck
        | error err =>
          refine ⟨hcheck, fun visit hvisit => ?_⟩
          rw [List.append_nil] at hvisit
          exact Visit.within_head hR (.inr hskip.1) hvisit (by rw [heq]; exact hR.refl after)
            fun hok => by cases hok

/-- What the parts of a pass respect holds up to each of its checks, and on from it. -/
theorem passVisits (hR : PassRelation run R) (w : Work) :
    ∀ visit ∈ passVisits run w, visit.Within run R w (Work.integrityPass run w) := by
  have hfirst : R w (firstHalf run w).2 ∧
      ∀ visit ∈ Work.modifiedVisits run w.txn.modified.ids w,
        visit.Within run R w (firstHalf run w) := hR.modifiedVisits _ _ _
  rw [Work.passVisits, secondVisits, integrityPass_eq]
  intro visit hvisit
  cases heq : firstHalf run w with
  | mk result u =>
    rw [heq] at hfirst hvisit
    cases result with
    | error err =>
      rw [List.append_nil] at hvisit
      exact hfirst.2 visit hvisit
    | ok checked =>
      obtain ⟨honward, hsecond⟩ := hR.affectedVisits u.affected checked
        (u.count Statistics.countQuery)
      have hquery := hR.trans hfirst.1 (hR.query u)
      rcases List.mem_append.1 hvisit with hvisit | hvisit
      · have hv := hfirst.2 visit hvisit
        exact ⟨hv.since, hv.candidate, hv.due,
          hR.trans hv.onward (hR.trans (hR.query u) honward), fun _ => hv.succeeds rfl⟩
      · exact (hsecond visit hvisit).later hR hquery

end PassRelation

/-! ## Checks that fail -/

theorem exists_visit_of_checkEntity {err : StoreError}
    (h : checkEntity run id w = (.error err, w')) :
    ∃ visit ∈ w.visits id, (visit.outcome run).1.result = .error err := by
  rw [checkEntity] at h
  cases hcand : w.candidate? id with
  | none =>
    rw [hcand] at h
    cases h
  | some e =>
    rw [hcand] at h
    obtain rfl := id_of_candidate? hcand
    exact ⟨⟨e, w⟩, by simp [visits, hcand], (Prod.mk.inj h).1⟩

theorem exists_visit_of_checkModified {err : StoreError}
    (h : checkModified run ids checked w = (.error err, w')) :
    ∃ visit ∈ modifiedVisits run ids w, (visit.outcome run).1.result = .error err := by
  induction ids generalizing checked w with
  | nil => cases h
  | cons id rest ih =>
    rw [checkModified] at h
    rw [modifiedVisits]
    split at h
    · rename_i hmod
      rw [if_pos hmod]
      cases hcheck : checkEntity run id w with | mk result after
      rw [hcheck] at h
      cases result with
      | ok _ =>
        obtain ⟨visit, hvisit, hfails⟩ := ih h
        exact ⟨visit, List.mem_append_right _ hvisit, hfails⟩
      | error _ =>
        cases h
        obtain ⟨visit, hvisit, hfails⟩ := exists_visit_of_checkEntity hcheck
        exact ⟨visit, List.mem_append_left _ hvisit, hfails⟩
    · rename_i hmod
      rw [if_neg hmod]
      exact ih h

theorem exists_visit_of_checkAffected {err : StoreError}
    (h : checkAffected run ids checked w = (.error err, w')) :
    ∃ visit ∈ affectedVisits run ids checked w, (visit.outcome run).1.result = .error err := by
  induction ids generalizing checked w with
  | nil => cases h
  | cons id rest ih =>
    rw [checkAffected] at h
    rw [affectedVisits]
    split at h
    · rename_i hskip
      rw [if_pos hskip]
      exact ih h
    · rename_i hdue
      rw [if_neg hdue]
      cases hcheck : checkEntity run id w with | mk result after
      rw [hcheck] at h
      cases result with
      | ok _ =>
        obtain ⟨visit, hvisit, hfails⟩ := ih h
        exact ⟨visit, List.mem_append_right _ hvisit, hfails⟩
      | error _ =>
        cases h
        obtain ⟨visit, hvisit, hfails⟩ := exists_visit_of_checkEntity hcheck
        exact ⟨visit, List.mem_append_left _ hvisit, hfails⟩

/-- A pass fails with the error of one of its checks. -/
theorem exists_visit_of_error {err : StoreError} (h : integrityPass run w = (.error err, w')) :
    ∃ visit ∈ passVisits run w, (visit.outcome run).1.result = .error err := by
  rw [integrityPass_eq] at h
  split at h
  · rename_i err' u hfirst
    cases h
    obtain ⟨visit, hvisit, hfails⟩ := exists_visit_of_checkModified hfirst
    exact ⟨visit, List.mem_append_left _ hvisit, hfails⟩
  · rename_i checked u hfirst
    obtain ⟨visit, hvisit, hfails⟩ := exists_visit_of_checkAffected h
    exact ⟨visit, List.mem_append_right _ (by rwa [secondVisits, hfirst]), hfails⟩

/-! ## Nothing is left out -/

theorem halves_of_completed (h : integrityPass run w = (.ok checked, w')) :
    ∃ first u, firstHalf run w = (.ok first, u) ∧
      checkAffected run u.affected first (u.count Statistics.countQuery) = (.ok checked, w') := by
  rw [integrityPass_eq] at h
  split at h
  · cases h
  · rename_i first u heq
    exact ⟨first, u, heq, h⟩

section

variable (hook : Accruing run)
include hook

theorem Accruing.checkModified (hw : w.txn.Repairing)
    (h : Work.checkModified run ids checked w = (.ok checked', w')) : w.Accrues w' := by
  have haccrues := (hook.passRelation.modifiedVisits ids checked w).1 hw
  rwa [h] at haccrues

theorem Accruing.checkAffected (hw : w.txn.Repairing)
    (h : Work.checkAffected run ids checked w = (.ok checked', w')) : w.Accrues w' := by
  have haccrues := (hook.passRelation.affectedVisits ids checked w).1 hw
  rwa [h] at haccrues

/-- The first half of a pass that completes has checked what was to be put, unless it has been taken
away. -/
theorem mem_modifiedVisits (hw : w.txn.Repairing) (hid : id ∈ ids)
    (hput : w.txn.modified.contains id = true)
    (h : checkModified run ids checked w = (.ok checked', w'))
    (hd : w'.txn.deleted.contains id = false) : id ∈ Visit.ids (modifiedVisits run ids w) := by
  induction ids generalizing checked w with
  | nil => cases hid
  | cons other rest ih =>
    rw [checkModified] at h
    rw [modifiedVisits]
    split at h
    · rename_i hmod
      rw [if_pos hmod, Visit.ids_append, List.mem_append]
      have hcheck := hook.checkEntity hw other
      cases hafter : checkEntity run other w with | mk result after
      rw [hafter] at h hcheck
      cases result with
      | error _ => cases h
      | ok _ =>
        by_cases hne : id = other
        · exact .inl (hne ▸ mem_ids_visits (isSome_candidate? hput))
        · have halive := (hook.checkModified hcheck.repairing h).alive hd
          exact .inr (ih hcheck.repairing ((List.mem_cons.1 hid).resolve_left hne)
            (hcheck.put_of_alive hput halive) h)
    · rename_i hmod
      rw [if_neg hmod]
      refine ih hw ((List.mem_cons.1 hid).resolve_left ?_) hput h
      rintro rfl
      exact hmod hput

omit hook in
theorem Accrues.isSome_candidate? (h : w.Accrues (w.checkEntity run other).2)
    (hkeeps : ∀ visit ∈ w.visits other, ¬ visit.Removes run id)
    (hcand : (w.candidate? id).isSome = true)
    (hd : (w.checkEntity run other).2.txn.deleted.contains id = false) :
    ((w.checkEntity run other).2.candidate? id).isSome = true := by
  cases hput : w.txn.modified.contains id with
  | true => exact Work.isSome_candidate? (h.put_of_alive hput hd)
  | false =>
    rw [isSome_candidate?_eq, hput, Bool.false_or] at hcand
    rw [isSome_candidate?_eq, contains_checkEntity hkeeps hcand, Bool.or_true]

/-- The second half of a pass that completes has checked the listed entities, unless they had been
checked or have been deleted, or removed before their turn. -/
theorem mem_affectedVisits (hw : w.txn.Repairing) (hid : id ∈ ids)
    (hcand : (w.candidate? id).isSome = true) (hfresh : checked.contains id = false)
    (hkeeps : ∀ visit ∈ Visit.beforeTurn id (affectedVisits run ids checked w),
      ¬ visit.Removes run id)
    (h : checkAffected run ids checked w = (.ok checked', w'))
    (hd : w'.txn.deleted.contains id = false) :
    id ∈ Visit.ids (affectedVisits run ids checked w) := by
  induction ids generalizing checked w with
  | nil => cases hid
  | cons other rest ih =>
    have halive := (hook.checkAffected hw h).alive hd
    rw [checkAffected] at h
    rw [affectedVisits] at hkeeps ⊢
    split at h
    · rename_i hskip
      rw [if_pos hskip] at hkeeps ⊢
      refine ih hw ((List.mem_cons.1 hid).resolve_left ?_) hcand hfresh hkeeps h
      rintro rfl
      rw [hfresh, halive] at hskip
      cases hskip
    · rename_i hdue
      rw [if_neg hdue] at hkeeps ⊢
      rw [Visit.ids_append, List.mem_append]
      by_cases hne : id = other
      · exact .inl (hne ▸ mem_ids_visits hcand)
      rw [beforeTurn_visits_append w (Ne.symm hne)] at hkeeps
      have hcheck := hook.checkEntity hw other
      have hhead : ∀ visit ∈ w.visits other, ¬ visit.Removes run id :=
        fun visit hvisit => hkeeps visit (List.mem_append_left _ hvisit)
      have hstays := hcheck.isSome_candidate? hhead hcand
      cases hafter : checkEntity run other w with | mk result after
      rw [hafter] at h hcheck hkeeps hstays
      cases result with
      | error _ => cases h
      | ok _ =>
        have halive' := (hook.checkAffected hcheck.repairing h).alive hd
        have hfresh' : (checked.add other).contains id = false := by
          simp [OrderedMap.contains_add, hfresh, Ne.symm hne]
        exact .inr (ih hcheck.repairing ((List.mem_cons.1 hid).resolve_left hne)
          (hstays halive') hfresh'
          (fun visit hvisit => hkeeps visit (List.mem_append_right _ hvisit)) h)

/-- A pass that completes has checked everything that was to be put when it began and has not been
taken away. -/
theorem visited_of_put (hw : w.txn.Repairing) (hput : w.txn.modified.contains id = true)
    (h : integrityPass run w = (.ok checked, w')) (hd : w'.txn.deleted.contains id = false) :
    id ∈ Visit.ids (passVisits run w) := by
  obtain ⟨first, u, hfirst, hsecond⟩ := halves_of_completed h
  have hu := hook.checkModified hw hfirst
  have hbegun : (u.count Statistics.countQuery).txn.Repairing :=
    ⟨hu.repairing.state, hu.repairing.ensuring⟩
  have halive := (hook.checkAffected hbegun hsecond).alive hd
  rw [passVisits, Visit.ids_append, List.mem_append]
  exact .inl (mem_modifiedVisits hook hw (Index.mem_ids_iff.2 hput) hput hfirst halive)

/-- A pass that completes has checked everything that was visible and referred to a deleted id after
its first half, and has not been deleted since, or removed before its turn. -/
theorem visited_of_refers (hw : w.txn.Repairing)
    (h : integrityPass run w = (.ok checked, w')) {e : Entity}
    (hkeeps : ∀ visit ∈ Visit.beforeTurn e.id (secondVisits run w), ¬ visit.Removes run e.id)
    (he : e ∈ (firstHalf run w).2.matching (firstHalf run w).2.referrerQuery)
    (hcand : ((firstHalf run w).2.candidate? e.id).isSome = true) {ref : EntityId}
    (href : ref ∈ e.references) (hgone : (firstHalf run w).2.txn.deleted.contains ref = true)
    (hd : w'.txn.deleted.contains e.id = false) : e.id ∈ Visit.ids (passVisits run w) := by
  obtain ⟨first, u, hfirst, hsecond⟩ := halves_of_completed h
  rw [secondVisits, hfirst] at hkeeps
  rw [hfirst] at he hcand hgone
  have hu := hook.checkModified hw hfirst
  have hbegun : (u.count Statistics.countQuery).txn.Repairing :=
    ⟨hu.repairing.state, hu.repairing.ensuring⟩
  rw [passVisits, Visit.ids_append, List.mem_append, secondVisits, hfirst]
  cases hchecked : first.contains e.id with
  | true =>
    exact .inl (((checkModified_checked hfirst e.id).1 hchecked).resolve_left
      (by simp [OrderedMap.contains]))
  | false =>
    have haffected : e.id ∈ u.affected := by
      refine mem_affected_iff.2 ⟨ref, hgone, ?_, .inr ⟨e, he, href, rfl⟩⟩
      rintro rfl
      have halive := (hook.checkAffected hbegun hsecond).alive hd
      exact absurd (hgone.symm.trans halive) (by simp)
    exact .inr (mem_affectedVisits hook hbegun haffected hcand hchecked hkeeps hsecond hd)

end

end EntityStore.Work
