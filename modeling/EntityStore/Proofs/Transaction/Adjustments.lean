import EntityStore.Hook.Program
import EntityStore.Proofs.Transaction.Outcomes
import EntityStore.Proofs.Transaction.Passes

/-!
# Changes that stay inside a transaction

Most of what a transaction does changes its working set, its marks and the counters of its store,
and nothing that anybody else could see. A relation that tolerates such adjustments is carried over
from the hooks to the operations that set them off (`Tolerant.perform`), and from the operations to
the hooks that ask for them (`Tolerant.runner`), however deeply hooks set off hooks.
-/

namespace EntityStore

/-- Whether an entry of the journal tells of a callback. -/
def Note.isCallback : Note → Bool
  | .callback .. => true
  | _ => false

namespace Store

/-- The entries of the journal that tell of callbacks, oldest first. -/
def callbacksRun (s : Store) : List Note := s.journal.filter Note.isCallback

/-- Two stores that differ at most in counters, announcements and remarks. -/
structure Quiet (s s' : Store) : Prop where
  config : s'.config = s.config
  instrument : s'.backend.instrument = s.backend.instrument
  table : s'.backend.memory.table = s.backend.memory.table
  active : s'.backend.memory.active = s.backend.memory.active
  log : s'.backend.memory.log = s.backend.memory.log
  feed : s'.feed = s.feed
  begun : s'.begun = s.begun
  callbacks : s'.callbacksRun = s.callbacksRun

namespace Quiet

theorem refl (s : Store) : Quiet s s := ⟨rfl, rfl, rfl, rfl, rfl, rfl, rfl, rfl⟩

theorem trans {s t u : Store} (h : Quiet s t) (h' : Quiet t u) : Quiet s u where
  config := h'.config.trans h.config
  instrument := h'.instrument.trans h.instrument
  table := h'.table.trans h.table
  active := h'.active.trans h.active
  log := h'.log.trans h.log
  feed := h'.feed.trans h.feed
  begun := h'.begun.trans h.begun
  callbacks := h'.callbacks.trans h.callbacks

theorem count (s : Store) (counter : Statistics → Statistics) : Quiet s (s.count counter) :=
  ⟨rfl, rfl, rfl, rfl, rfl, rfl, rfl, rfl⟩

theorem noteModification (s : Store) : Quiet s (s.onBackend Backend.noteModification) :=
  ⟨rfl, rfl, rfl, rfl, rfl, rfl, rfl, rfl⟩

theorem remark (s : Store) (r : Remark) : Quiet s (s.note (.remark r)) where
  config := rfl
  instrument := rfl
  table := rfl
  active := rfl
  log := rfl
  feed := rfl
  begun := rfl
  callbacks := by simp [callbacksRun, note, Note.isCallback]

end Quiet

end Store

namespace Work

/-- Two units of work that differ at most in the working set, in marks and settings other than
auto-commit, and in counters. -/
structure Adjusts (w w' : Work) : Prop where
  id : w'.txn.id = w.txn.id
  state : w'.txn.state = w.txn.state
  autoCommit : w'.txn.autoCommit = w.txn.autoCommit
  callbacks : w'.txn.callbacks = w.txn.callbacks
  store : w.store.Quiet w'.store

namespace Adjusts

variable (w : Work)

theorem ofStore {s : Store} (h : w.store.Quiet s) : Adjusts w { w with store := s } :=
  ⟨rfl, rfl, rfl, rfl, h⟩

variable {w} in
theorem trans {u v : Work} (h : u.Adjusts v) (h' : v.Adjusts w) : u.Adjusts w where
  id := h'.id.trans h.id
  state := h'.state.trans h.state
  autoCommit := h'.autoCommit.trans h.autoCommit
  callbacks := h'.callbacks.trans h.callbacks
  store := h.store.trans h'.store

theorem count (counter : Statistics → Statistics) : Adjusts w (w.count counter) :=
  ofStore w (.count _ _)

theorem recordSnapshot (e : Entity) : Adjusts w (w.onTxn (·.recordSnapshot e)) :=
  ⟨rfl, rfl, rfl, rfl, .refl _⟩

theorem takeDown (e : Entity) (field : String) (value : PropertyValue) :
    Adjusts w (w.takeDown e field value) :=
  ⟨rfl, rfl, rfl, rfl, (Store.Quiet.noteModification _).trans (.count _ _)⟩

theorem recordDeletion (id : EntityId) :
    Adjusts w ((w.onTxn (·.recordDeletion id)).onStore (·.onBackend Backend.noteModification)) :=
  ⟨rfl, rfl, rfl, rfl, .noteModification _⟩

theorem checkOut (id : EntityId) : Adjusts w (w.checkOut id) := ⟨rfl, rfl, rfl, rfl, .refl _⟩

theorem checkIn (tracked : Bool) (e : Entity) : Adjusts w (w.checkIn tracked e) := by
  unfold Work.checkIn
  unfold onTxn
  dsimp only
  split <;> exact ⟨rfl, rfl, rfl, rfl, .refl _⟩

theorem beginPass : Adjusts w w.beginPass := ⟨rfl, rfl, rfl, rfl, .refl _⟩

theorem endPass : Adjusts w w.endPass := ⟨rfl, rfl, rfl, rfl, .count _ _⟩

end Adjusts

/-- A relation between units of work that tolerates adjustments. -/
structure Tolerant (R : Work → Work → Prop) : Prop where
  adjust : ∀ {w w'}, Adjusts w w' → R w w'
  trans : ∀ {u v w}, R u v → R v w → R u w

namespace Tolerant

variable {R : Work → Work → Prop} {run : HookRunner}

theorem refl (hR : Tolerant R) (w : Work) : R w w := hR.adjust (.ofStore w (.refl _))

theorem checkEntity (hR : Tolerant R) (hook : ∀ hook e w, R w (run hook e w).2) (id : EntityId)
    (w : Work) : R w (Work.checkEntity run id w).2 := by
  rw [Work.checkEntity]
  split
  · exact hR.refl w
  · rename_i e _
    exact hR.trans (hR.adjust (.checkOut w id))
      (hR.trans (hook .check e (w.checkOut id)) (hR.adjust (.checkIn _ _ _)))

theorem repairRelation (hR : Tolerant R) (hook : ∀ hook e w, R w (run hook e w).2) :
    RepairRelation run R where
  refl := hR.refl
  trans := hR.trans
  check id w _ := hR.checkEntity hook id w
  query w := hR.adjust (.count w _)
  beginPass w := hR.adjust (.beginPass w)
  endPass w := hR.adjust (.endPass w)
  restart w := hR.adjust (.count w _)

theorem ensureIntegrity (hR : Tolerant R) (hook : ∀ hook e w, R w (run hook e w).2) (w : Work) :
    R w (Work.ensureIntegrity run w).2 :=
  (hR.repairRelation hook).ensureIntegrity w

/-- The parts of an operation that are no adjustments, each of them respected where it occurs. -/
structure Parts (run : HookRunner) (allowed : Operation → Prop) (R : Work → Work → Prop) :
    Prop where
  hook : ∀ hook e w, R w (run hook e w).2
  write : ∀ w, w.writesThrough = true → R w (w.writePending run).2
  commit : ∀ w, w.txn.state = .active → R w (w.commit run).2
  rollback : ∀ w, w.txn.state = .active → R w w.rollback.2
  afterCommit : ∀ c w, allowed (.afterCommit c) → R w (w.afterCommit c)
  setAutoCommit : ∀ value w, allowed (.setAutoCommit value) →
    R w (w.onTxn fun t => { t with autoCommit := value })

variable {allowed : Operation → Prop}

theorem writeThrough (hR : Tolerant R) (parts : Parts run allowed R) (w : Work) :
    R w (w.writeThrough run).2 := by
  rw [Work.writeThrough]
  split
  · rename_i h
    exact parts.write w h
  · exact hR.refl w

theorem delete (hR : Tolerant R) (parts : Parts run allowed R) (id : EntityId) (w : Work) :
    R w (w.delete run id).2 := by
  have hrecord := hR.adjust (.recordDeletion w id)
  rcases w.delete_cases run id with ⟨result, heq⟩ | ⟨-, -, ⟨-, heq⟩ | ⟨-, heq⟩⟩
  · rw [heq]
    exact hR.refl w
  · rw [heq]
    exact hrecord
  · rw [heq]
    exact hR.trans hrecord (hR.writeThrough parts _)

/-- What the parts of operations respect is respected by every allowed operation. -/
theorem perform (hR : Tolerant R) (parts : Parts run allowed R) (op : Operation)
    (hop : allowed op) (w : Work) : R w (op.perform run w).2 := by
  cases op with
  | persist e =>
    rcases w.persist_cases run e with ⟨result, heq⟩ | ⟨-, -, heq⟩ <;> rw [Operation.perform, heq]
    · exact hR.refl w
    · exact hR.trans (hR.adjust (.recordSnapshot w e)) (hR.writeThrough parts _)
  | modified e field value =>
    rcases w.modified_cases run e field value with ⟨result, heq⟩ | ⟨-, -, -, heq⟩ <;>
      rw [Operation.perform, heq]
    · exact hR.refl w
    · exact hR.trans (hR.adjust (.takeDown w e field value)) (hR.writeThrough parts _)
  | delete id => exact hR.delete parts id w
  | deleteEntity e =>
    have hhook := parts.hook .delete e w
    rcases w.deleteEntity_cases run e with ⟨err, heq⟩ | heq <;> rw [Operation.perform, heq]
    · exact hhook
    · exact hR.trans hhook (hR.delete parts e.id _)
  | commit =>
    rcases w.commit_cases run with ⟨-, err, heq⟩ | ⟨hactive, -⟩ | ⟨hactive, -⟩ | ⟨hactive, -⟩
    · rw [Operation.perform, heq]
      exact hR.refl w
    all_goals exact parts.commit w hactive
  | rollback =>
    rcases w.rollback_cases with ⟨-, err, heq⟩ | ⟨hactive, -⟩
    · rw [Operation.perform, heq]
      exact hR.refl w
    · exact parts.rollback w hactive
  | afterCommit c => exact parts.afterCommit c w hop
  | setAutoCommit value => exact parts.setAutoCommit value w hop
  | setIgnoreModifications value => exact hR.adjust ⟨rfl, rfl, rfl, rfl, .refl _⟩
  | setEnsureIntegrity value => exact hR.adjust ⟨rfl, rfl, rfl, rfl, .refl _⟩
  | contains id => exact hR.refl w
  | get id => exact hR.refl w
  | findAll q => exact hR.adjust (.count w _)
  | findFirst q => exact hR.adjust (.count w _)
  | inspect => exact hR.refl w
  | remark r => exact hR.adjust (.ofStore w (.remark _ r))

end Tolerant

end Work

/-- The callbacks that an operation registers are of a kind. -/
def Operation.Registers (calls : Callback → Prop) (op : Operation) : Prop :=
  ∀ c, op = .afterCommit c → calls c

theorem Operation.registers_commit (calls : Callback → Prop) :
    Operation.commit.Registers calls := nofun

namespace Program

variable {α β : Type} {allowed allowed' : Operation → Prop}

/-- Every operation that the program may ask for, whatever the replies, is allowed. -/
def Asks (allowed : Operation → Prop) : Program α → Prop
  | done _ => True
  | ask op next => allowed op ∧ ∀ reply, (next reply).Asks allowed

theorem Asks.mono {p : Program α} (hp : p.Asks allowed) (h : ∀ op, allowed op → allowed' op) :
    p.Asks allowed' := by
  induction p with
  | done value => trivial
  | ask op next ih => exact ⟨h op hp.1, fun reply => ih reply (hp.2 reply)⟩

theorem asks_true (p : Program α) : p.Asks fun _ => True := by
  induction p with
  | done value => trivial
  | ask op next ih => exact ⟨trivial, ih⟩

theorem Asks.andThen {p : Program α} {f : α → Program β} (hp : p.Asks allowed)
    (hf : ∀ value, (f value).Asks allowed) : (p.andThen f).Asks allowed := by
  induction p with
  | done value => exact hf value
  | ask op next ih => exact ⟨hp.1, fun reply => ih reply (hp.2 reply)⟩

theorem Asks.run_respects {p : Program α} (hp : p.Asks allowed)
    {R : Work → Work → Prop} (hR : Work.Tolerant R) {runner : HookRunner}
    (hop : ∀ op, allowed op → ∀ w, R w (op.perform runner w).2) (w : Work) :
    R w (p.run runner w).2 := by
  induction p generalizing w with
  | done value => exact hR.refl w
  | ask op next ih =>
    exact hR.trans (hop op hp.1 w) (ih _ (hp.2 _) _)

theorem Asks.run_preserves {p : Program α} (hp : p.Asks allowed)
    {I : Work → Prop} {runner : HookRunner}
    (hop : ∀ op, allowed op → ∀ w, I w → I (op.perform runner w).2) {w : Work} (hw : I w) :
    I (p.run runner w).2 := by
  induction p generalizing w with
  | done value => exact hw
  | ask op next ih => exact ih _ (hp.2 _) (hop op hp.1 w hw)

/-- Whatever the replies, the program is done with a value of which something holds. -/
def Ends (post : α → Prop) : Program α → Prop
  | done value => post value
  | ask _ next => ∀ reply, (next reply).Ends post

theorem Ends.run {p : Program α} {post : α → Prop} (hp : p.Ends post) (runner : HookRunner)
    (w : Work) : post (p.run runner w).1 := by
  induction p generalizing w with
  | done value => exact hp
  | ask op next ih => exact ih _ (hp _) _

end Program

namespace Hooks

/-- The programs of all hooks ask for allowed operations only. -/
def Ask (allowed : Operation → Prop) (hooks : Hooks) : Prop :=
  ∀ hook e, (hooks hook e).Asks allowed

theorem runner_respects {R : Work → Work → Prop} (hR : Work.Tolerant R) {hooks : Hooks}
    {allowed : Operation → Prop} (hhooks : hooks.Ask allowed) {top : Nat}
    (hop : ∀ level ≤ top, (∀ hook e w, R w (hooks.runner level hook e w).2) →
      ∀ op, allowed op → ∀ w, R w (op.perform (hooks.runner level) w).2) :
    ∀ level ≤ top, ∀ hook e w, R w (hooks.runner level hook e w).2 := by
  intro level
  induction level with
  | zero => intro _ hook e w; exact hR.refl w
  | succ level ih =>
    intro hle hook e w
    have hlower := ih (Nat.le_of_succ_le hle)
    exact (hhooks hook e).run_respects hR (hop level (Nat.le_of_succ_le hle) hlower) w

end Hooks

end EntityStore
