import EntityStore.Proofs.Repair.Bookkeeping

/-!
# What a repair makes of a working set

A relation that every single check respects, whatever the check comes to, holds from the beginning
of a repair to its end, as long as all entities look after themselves (`TreatedRelation`). So a
repair only refines the working set: what was to be taken away still is, and what was to be put is
put without some of its references, or is taken away (`treated_refines`).
-/

namespace EntityStore

open Repair

namespace Repair

theorem Trims.trans {e mid e' : Entity} {fields fields' : List String} (h : Trims e fields mid)
    (h' : Trims mid fields' e') : Trims e (fields ++ fields') e' := by
  induction h with
  | refl => exact h'
  | head hdrop _ ih => exact .head hdrop (ih h')

end Repair

namespace Work

variable {run : HookRunner} {R : Work → Work → Prop} {w w' : Work} {id : EntityId} {e : Entity}
  {result : Result Unit}

/-- A relation that checks respect, and whatever leaves the working set and the committed entities
as they are. -/
structure TreatedRelation (R : Work → Work → Prop) : Prop where
  trans : ∀ {u v w}, R u v → R v w → R u w
  check : ∀ {w id e result w'}, w.candidate? id = some e → w.txn.deleted.contains id = false →
    w.Treated id e (result, w') → R w w'
  aside : ∀ {w w'}, w'.txn.modified = w.txn.modified → w'.txn.deleted = w.txn.deleted →
    w'.store.backend.table = w.store.backend.table → R w w'

section

variable {P : Entity → Prop} {Rel : Option Entity → Entity → Properties → Prop} {mute : Prop}
  (hR : TreatedRelation R) (h : Accounts P Rel mute) (hrun : Honours run) (calls : Callback → Prop)
include hR h hrun

theorem TreatedRelation.passRelation :
    PassRelation run fun w w' => w.Tending P Rel calls mute ∧ w.txn.ensuring = true →
      (w'.Tending P Rel calls mute ∧ w'.txn.ensuring = true) ∧ R w w' where
  refl w hw := ⟨hw, hR.aside rfl rfl rfl⟩
  trans hu hv hw := by
    obtain ⟨htending, hfirst⟩ := hu hw
    obtain ⟨htending', hsecond⟩ := hv htending
    exact ⟨htending', hR.trans hfirst hsecond⟩
  check id w hdue hw := by
    obtain ⟨htending, hensuring, -⟩ := hw.1.checkEntity h hrun hw.2 hdue
    refine ⟨⟨htending, hensuring⟩, ?_⟩
    have hsound := hw.1.kept.sound h
    have halive : w.txn.deleted.contains id = false := hdue.elim hsound.alive fun hd => hd
    cases hcand : w.candidate? id with
    | none =>
      rw [Work.checkEntity, hcand]
      exact hR.aside rfl rfl rfl
    | some e =>
      exact hR.check hcand halive
        (checkEntity_treated hrun ⟨hw.1.recording, hw.2⟩ (hsound.candidate hcand) hcand halive)
  query w hw := ⟨⟨hw.1.count _, hw.2⟩, hR.aside rfl rfl rfl⟩

variable {calls}

theorem TreatedRelation.markedPass (hw : w.Tending P Rel calls mute) :
    (integrityPass run w.beginPass).2.endPass.Tending P Rel calls mute ∧
      R w (integrityPass run w.beginPass).2.endPass := by
  obtain ⟨⟨htending, -⟩, hpass⟩ :=
    (hR.passRelation h hrun calls).integrityPass w.beginPass ⟨hw.beginPass, rfl⟩
  have hbegin : R w w.beginPass := hR.aside rfl rfl rfl
  exact ⟨htending.endPass, hR.trans (hR.trans hbegin hpass) (hR.aside rfl rfl rfl)⟩

theorem TreatedRelation.since_pass {u : Work} (hw : w.Tending P Rel calls mute ∧ R u w) :
    (integrityPass run w.beginPass).2.endPass.Tending P Rel calls mute ∧
      R u (integrityPass run w.beginPass).2.endPass :=
  (hR.markedPass h hrun hw.1).imp id (hR.trans hw.2)

omit h hrun in
theorem TreatedRelation.since_count {u : Work} (hw : w.Tending P Rel calls mute ∧ R u w)
    (counter : Statistics → Statistics) :
    (w.count counter).Tending P Rel calls mute ∧ R u (w.count counter) :=
  ⟨hw.1.count counter, hR.trans hw.2 (hR.aside rfl rfl rfl)⟩

theorem TreatedRelation.ensureIntegrity (hw : w.Tending P Rel calls mute) :
    R w (Work.ensureIntegrity run w).2 :=
  (repeatPasses_preserves (I := fun u => u.Tending P Rel calls mute ∧ R w u)
    (fun _ hu => hR.since_pass h hrun hu) (fun _ hu => hR.since_count hu _)
    ⟨hw, hR.aside rfl rfl rfl⟩).2

end

/-! ## Refinement -/

/-- Two working sets, of which the second is as a repair may have left the first. -/
structure Refines (w w' : Work) : Prop where
  deleted : ∀ id, w.txn.deleted.contains id = true → w'.txn.deleted.contains id = true
  put : ∀ id e, w.txn.modified.find? id = some e → w'.txn.deleted.contains id = true ∨
    ∃ fields e', Trims e fields e' ∧ w'.txn.modified.find? id = some e'

theorem Refines.of_same (hmodified : w'.txn.modified = w.txn.modified)
    (hdeleted : w'.txn.deleted = w.txn.deleted) : w.Refines w' :=
  ⟨fun _ hd => hdeleted ▸ hd, fun _ e he => .inr ⟨[], e, .refl, hmodified ▸ he⟩⟩

theorem Refines.refl (w : Work) : w.Refines w := .of_same rfl rfl

theorem Refines.trans {u : Work} (h : u.Refines w) (h' : w.Refines w') : u.Refines w' where
  deleted id hd := h'.deleted id (h.deleted id hd)
  put id e he := by
    rcases h.put id e he with hd | ⟨fields, mid, htrims, hmid⟩
    · exact .inl (h'.deleted id hd)
    · refine (h'.put id mid hmid).imp_right fun ⟨fields', e', htrims', he'⟩ => ?_
      exact ⟨_, e', htrims.trans htrims', he'⟩

/-- A check that trims its entity and puts it. -/
theorem Refines.of_trimmed (hcand : w.candidate? id = some e) {e' : Entity} {fields : List String}
    (htrims : Trims e fields e') (hmodified : w'.txn.modified = w.txn.modified.add e')
    (hdeleted : w'.txn.deleted = w.txn.deleted) : w.Refines w' where
  deleted other hd := hdeleted ▸ hd
  put other x hx := by
    rw [hmodified, Index.find?_add]
    split
    · rename_i hid
      -- what was to be put is what was checked
      rw [htrims.id, id_of_candidate? hcand] at hid
      subst hid
      rw [candidate?, hx] at hcand
      cases hcand
      exact .inr ⟨fields, e', htrims, rfl⟩
    · exact .inr ⟨[], x, .refl, hx⟩

theorem treated_refines : TreatedRelation Refines where
  trans := .trans
  check {w id e result w'} hcand halive ht := by
    cases ht with
    | left htxn _ | refused _ htxn _ => exact .of_same (by rw [htxn]) (by rw [htxn])
    | trimmed _ htrims htxn _ => exact .of_trimmed hcand htrims (by rw [htxn]) (by rw [htxn])
    | muted _ htrims _ htxn _ => exact .of_trimmed hcand htrims (by rw [htxn]) (by rw [htxn])
    | struck htxn _ =>
      refine ⟨fun other hd => ?_, fun other x hx => ?_⟩
      · simp [htxn, Transaction.recordDeletion, OrderedMap.contains_add, hd]
      · by_cases hid : id = other
        · simp [htxn, Transaction.recordDeletion, OrderedMap.contains_add, hid]
        · refine .inr ⟨[], x, .refl, ?_⟩
          simpa [htxn, Transaction.recordDeletion, Index.find?_remove, hid] using hx
  aside hmodified hdeleted _ := .of_same hmodified hdeleted

end Work

end EntityStore
