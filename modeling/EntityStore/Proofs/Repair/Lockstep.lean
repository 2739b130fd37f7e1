import EntityStore.Proofs.Repair.Pass
import EntityStore.Proofs.Transaction.Abreast
import EntityStore.Proofs.Transaction.Accrual

/-!
# What a repair depends on

Two stores may have counted, logged and published different things, and their backends may treat a
batch differently. As long as they have the same settings and the same committed entities, the
checks of a working set go the same way on both, and so does its repair
(`Work.Twins.ensureIntegrity`).
-/

namespace EntityStore

open Repair

namespace Work

/-- The same transaction on two stores with the same settings and the same committed entities. -/
structure Twins (w w' : Work) : Prop where
  txn : w'.txn = w.txn
  config : w'.store.config = w.store.config
  table : w'.store.backend.table = w.store.backend.table

variable {run : HookRunner} {α : Type} {u w w' : Work} {id : EntityId}

namespace Twins

theorem candidate? (h : w.Twins w') : w'.candidate? = w.candidate? :=
  candidate?_congr (by rw [h.txn]) h.table

theorem contains (h : w.Twins w') : w'.contains = w.contains := by
  funext id
  simp only [Work.contains, Backend.contains, h.txn, h.table]

theorem get (h : w.Twins w') : w'.get = w.get := by
  funext id
  simp only [Work.get, Backend.get, h.txn, h.table]

theorem affected (h : w.Twins w') : w'.affected = w.affected :=
  affected_congr (by rw [h.txn]) (by rw [h.txn]) h.table

theorem onTxn (h : w.Twins w') (change : Transaction → Transaction) :
    (w.onTxn change).Twins (w'.onTxn change) :=
  ⟨congrArg change h.txn, h.config, h.table⟩

theorem checkIn (h : w.Twins w') (tracked : Bool) (e : Entity) :
    (w.checkIn tracked e).Twins (w'.checkIn tracked e) := h.onTxn _

theorem count (h : w.Twins w') (counter : Statistics → Statistics) :
    (w.count counter).Twins (w'.count counter) := ⟨h.txn, h.config, h.table⟩

end Twins

/-! ## Checks -/

/-- What a check asks for is answered alike, and does the same to both transactions. -/
theorem Twins.perform (h : w.Twins w') (hw : w.txn.Repairing) {op : Operation}
    (hop : TendsOnly id op) (run run' : HookRunner) :
    Concur Twins (op.perform run w) (op.perform run' w') := by
  have hw' : w'.txn.Repairing := h.txn ▸ hw
  cases op with
  | contains other => exact ⟨congrFun h.contains other, h⟩
  | get other => exact ⟨congrFun h.get other, h⟩
  | modified e field value =>
    have hafter : (w.takeDown e field value).Twins (w'.takeDown e field value) :=
      ⟨congrArg (·.recordField e field value) h.txn, h.config, h.table⟩
    rw [Operation.perform, Operation.perform, modified_repairing hw, modified_repairing hw',
      h.contains, h.txn]
    split
    · exact ⟨rfl, h⟩
    · exact ⟨rfl, hafter⟩
  | delete other =>
    rw [Operation.perform, Operation.perform, delete_repairing hw, delete_repairing hw', h.txn]
    split
    · exact ⟨rfl, h⟩
    · exact ⟨rfl, congrArg (·.recordDeletion other) h.txn, h.config, h.table⟩
  | _ => exact hop.elim

/-- The unit of work on one of two stores, in a pass of a commit, and its twin on the other. -/
structure InStep (u w w' : Work) : Prop where
  underway : u.Underway w
  committing : u.txn.state = .committing
  twins : w.Twins w'

theorem InStep.repairing (h : u.InStep w w') : w.txn.Repairing :=
  ⟨h.underway.adjusts.state.trans h.committing, h.underway.ensuring⟩

theorem InStep.program (h : u.InStep w w') {p : Program α} (hp : p.Asks (TendsOnly id))
    (run run' : HookRunner) : Concur u.InStep (p.run run w) (p.run run' w') := by
  induction p generalizing w w' with
  | done value => exact ⟨rfl, h⟩
  | ask op next ih =>
    obtain ⟨hreply, htwins⟩ := h.twins.perform h.repairing hp.1 run run'
    simp only [Program.run, hreply]
    exact ih _ ⟨h.underway.perform hp.1 run, h.committing, htwins⟩ (hp.2 _)

section

variable (hrun : Honours run)
include hrun

/-- The check of an entity comes to the same on both stores. -/
theorem InStep.checkEntity (h : u.InStep w w') (id : EntityId) :
    Concur u.InStep (w.checkEntity run id) (w'.checkEntity run id) := by
  have hunderway := h.underway.checkEntity hrun id
  rw [Work.checkEntity, Work.checkEntity, h.twins.candidate?]
  rw [Work.checkEntity] at hunderway
  cases hcand : w.candidate? id with
  | none => exact ⟨rfl, h⟩
  | some e =>
    obtain rfl := id_of_candidate? hcand
    have he := h.underway.sound.candidate hcand
    obtain ⟨lower, hlower⟩ := hrun.check e (w.checkOut e.id) he
    obtain ⟨lower', hlower'⟩ := hrun.check e (w'.checkOut e.id) he
    have hout : u.InStep (w.checkOut e.id) (w'.checkOut e.id) :=
      ⟨h.underway.checkOut e.id, h.committing, h.twins.onTxn _⟩
    obtain ⟨houtcome, hafter⟩ := hout.program (check_tends he).1 lower lower'
    rw [hcand] at hunderway
    simp only [hlower, hlower', h.twins.txn] at hunderway ⊢
    rw [houtcome]
    exact ⟨rfl, hunderway, h.committing, hafter.twins.checkIn _ _⟩

theorem abreast_inStep (u : Work) : Abreast run run u.InStep where
  modified h := by rw [h.twins.txn]
  deleted h := by rw [h.twins.txn]
  affected h := h.twins.affected
  check h _ := h.checkEntity hrun _
  query {w w'} h :=
    ⟨h.underway.next (.count w _) (h.underway.sound.of_eq rfl rfl rfl) rfl ⟨rfl, rfl⟩,
      h.committing, h.twins.count _⟩

/-! ## Repairs -/

theorem abreastBetween_twins (hcommitting : u.txn.state = .committing) :
    AbreastBetween run run fun w w' => u.Between w ∧ w.Twins w' where
  signature h := by rw [h.2.txn]
  pass h := ⟨u.InStep, abreast_inStep hrun u, ⟨h.1.beginPass, hcommitting, h.2.onTxn _⟩,
    fun _ _ hpassed => ⟨hpassed.underway.endPass, (hpassed.twins.onTxn _).count _⟩⟩
  restart h := ⟨h.1.count _, h.2.count _⟩

/-- A repair comes to the same on both stores. -/
theorem Twins.ensureIntegrity (h : w.Twins w') (hs : w.Sound)
    (hcommitting : w.txn.state = .committing) :
    Concur Twins (w.ensureIntegrity run) (w'.ensureIntegrity run) := by
  have hpasses : w'.maxPasses = w.maxPasses := congrArg Config.maxIntegrityPasses h.config
  have hrestarts : w'.maxRestarts = w.maxRestarts :=
    maxRestarts_congr hpasses (congrArg Index.size h.table) (congrArg _ h.txn)
  have hbetween : w.Between w := ⟨hs, ⟨rfl, rfl⟩, .ofStore w (.refl _)⟩
  obtain ⟨hresult, hleft⟩ :=
    (abreastBetween_twins hrun hcommitting).ensureIntegrity hpasses hrestarts ⟨hbetween, h⟩
  exact ⟨hresult, hleft.2⟩

end

end Work

end EntityStore
