import EntityStore.Proofs.Transaction.Passes

/-!
# Two repairs side by side

Two units of work may differ, and so may the ways in which their hooks are carried out. As long as
both offer the same to check, and every check comes to the same in both, their passes come to the
same (`Work.Abreast.integrityPass`), and so do their repairs
(`Work.AbreastBetween.ensureIntegrity`).
-/

namespace EntityStore

namespace Work

variable {run run' : HookRunner} {R Q : Work → Work → Prop} {w w' : Work}

/-- Two outcomes with one result, of which units of work are left that are related. -/
structure Concur {α : Type} (R : Work → Work → Prop) (out out' : α × Work) : Prop where
  result : out'.1 = out.1
  left : R out.2 out'.2

/-- What relates two units of work between the checks of a pass. -/
structure Abreast (run run' : HookRunner) (R : Work → Work → Prop) : Prop where
  modified : ∀ {w w'}, R w w' → w'.txn.modified = w.txn.modified
  deleted : ∀ {w w'}, R w w' → w'.txn.deleted = w.txn.deleted
  affected : ∀ {w w'}, R w w' → w'.affected = w.affected
  check : ∀ {id w w'}, R w w' →
    w.txn.modified.contains id = true ∨ w.txn.deleted.contains id = false →
    Concur R (w.checkEntity run id) (w'.checkEntity run' id)
  query : ∀ {w w'}, R w w' →
    R (w.count Statistics.countQuery) (w'.count Statistics.countQuery)

namespace Abreast

theorem checkModified (h : Abreast run run' R) (ids : List EntityId) (checked : OrderedSet)
    (hw : R w w') :
    Concur R (w.checkModified run ids checked) (w'.checkModified run' ids checked) := by
  induction ids generalizing checked w w' with
  | nil => exact ⟨rfl, hw⟩
  | cons id rest ih =>
    rw [Work.checkModified, Work.checkModified, h.modified hw]
    split
    · rename_i hput
      obtain ⟨hresult, hleft⟩ := h.check hw (.inl hput)
      cases heq : w.checkEntity run id with | mk result v
      cases heq' : w'.checkEntity run' id with | mk result' v'
      rw [heq, heq'] at hresult hleft
      obtain rfl : result' = result := hresult
      cases result' with
      | ok _ => exact ih (checked.add id) hleft
      | error err => exact ⟨rfl, hleft⟩
    · exact ih checked hw

theorem checkAffected (h : Abreast run run' R) (ids : List EntityId) (checked : OrderedSet)
    (hw : R w w') :
    Concur R (w.checkAffected run ids checked) (w'.checkAffected run' ids checked) := by
  induction ids generalizing checked w w' with
  | nil => exact ⟨rfl, hw⟩
  | cons id rest ih =>
    rw [Work.checkAffected, Work.checkAffected, h.deleted hw]
    split
    · exact ih checked hw
    · rename_i hskip
      rw [Bool.not_eq_true, Bool.or_eq_false_iff] at hskip
      obtain ⟨hresult, hleft⟩ := h.check hw (.inr hskip.1)
      cases heq : w.checkEntity run id with | mk result v
      cases heq' : w'.checkEntity run' id with | mk result' v'
      rw [heq, heq'] at hresult hleft
      obtain rfl : result' = result := hresult
      cases result' with
      | ok _ => exact ih (checked.add id) hleft
      | error err => exact ⟨rfl, hleft⟩

/-- Passes over related units of work come to the same. -/
theorem integrityPass (h : Abreast run run' R) (hw : R w w') :
    Concur R (w.integrityPass run) (w'.integrityPass run') := by
  have hfirst : Concur R (firstHalf run w) (firstHalf run' w') := by
    rw [firstHalf, firstHalf, h.modified hw]
    exact h.checkModified w.txn.modified.ids .empty hw
  obtain ⟨hresult, hleft⟩ := hfirst
  rw [integrityPass_eq, integrityPass_eq]
  cases heq : firstHalf run w with | mk result v
  cases heq' : firstHalf run' w' with | mk result' v'
  rw [heq, heq'] at hresult hleft
  obtain rfl : result' = result := hresult
  cases result' with
  | error err => exact ⟨rfl, hleft⟩
  | ok checked =>
    dsimp only
    rw [h.affected hleft]
    exact h.checkAffected v.affected checked (h.query hleft)

end Abreast

/-- What relates two units of work between the passes of a repair. -/
structure AbreastBetween (run run' : HookRunner) (Q : Work → Work → Prop) : Prop where
  signature : ∀ {w w'}, Q w w' → w'.txn.signature = w.txn.signature
  pass : ∀ {w w'}, Q w w' → ∃ R, Abreast run run' R ∧ R w.beginPass w'.beginPass ∧
    ∀ v v', R v v' → Q v.endPass v'.endPass
  restart : ∀ {w w'}, Q w w' →
    Q (w.count Statistics.countRestart) (w'.count Statistics.countRestart)

theorem AbreastBetween.repeatPasses (h : AbreastBetween run run' Q)
    (maxPasses maxRestarts passes restarts bound : Nat) (hw : Q w w') :
    Concur Q (w.repeatPasses run maxPasses maxRestarts passes restarts bound)
      (w'.repeatPasses run' maxPasses maxRestarts passes restarts bound) := by
  induction bound generalizing passes restarts w w' with
  | zero => exact ⟨rfl, hw⟩
  | succ bound ih =>
    obtain ⟨R, habreast, hbegun, hended⟩ := h.pass hw
    obtain ⟨hresult, hleft⟩ := habreast.integrityPass hbegun
    rw [Work.repeatPasses, Work.repeatPasses, h.signature hw]
    split
    · exact ⟨rfl, hw⟩
    · cases heq : w.beginPass.integrityPass run with | mk result v
      cases heq' : w'.beginPass.integrityPass run' with | mk result' v'
      rw [heq, heq'] at hresult hleft
      obtain rfl : result' = result := hresult
      have hafter := hended v v' hleft
      cases result' with
      | ok checked =>
        simp only [h.signature hafter]
        split
        · exact ⟨rfl, hafter⟩
        · exact ih _ _ hafter
      | error err =>
        cases err with
        | integrityRestart => exact ih _ _ (h.restart hafter)
        | _ => exact ⟨rfl, hafter⟩

/-- Repairs of related units of work, within the same limits, come to the same. -/
theorem AbreastBetween.ensureIntegrity (h : AbreastBetween run run' Q)
    (hpasses : w'.maxPasses = w.maxPasses) (hrestarts : w'.maxRestarts = w.maxRestarts)
    (hw : Q w w') : Concur Q (w.ensureIntegrity run) (w'.ensureIntegrity run') := by
  rw [Work.ensureIntegrity, Work.ensureIntegrity, hpasses, hrestarts]
  exact h.repeatPasses _ _ _ _ _ hw

end Work

end EntityStore
