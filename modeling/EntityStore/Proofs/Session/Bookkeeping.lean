import EntityStore.Proofs.Repair.Bookkeeping
import EntityStore.Proofs.Session.References

/-!
# What stays known over a run

What is known of entities and of what transactions record of them stays known over a run, as long as
clients record what is true. What relates a pending entity to the committed one may be upset by
another client who changes the committed one in the meantime; the moves cross then.
-/

namespace EntityStore

open Repair

/-- Every operation of a move is permitted when its turn comes. -/
def Move.Obeys (run : HookRunner) (may : Work → Operation → Prop) (s : Session) : Move → Prop
  | .perform key op => ∀ t, s.transactions.find? key = some t → may ⟨s.store, t⟩ op
  | .within name p => p.Concludes run may (s.store.begin name)
  | _ => True

theorem Move.obeys_of_all {run : HookRunner} {may : Work → Operation → Prop} {s : Session}
    {key : String} {op : Operation} (test : Transaction → Bool)
    (h : (s.transactions.find? key).all test = true)
    (hmay : ∀ t, test t = true → may ⟨s.store, t⟩ op) : (Move.perform key op).Obeys run may s := by
  intro t ht
  rw [ht] at h
  exact hmay t h

theorem Move.Asks.obeys {allowed : Operation → Prop} {m : Move} (hm : m.Asks allowed)
    {may : Work → Operation → Prop} (h : ∀ w op, allowed op → may w op) (hcommit : allowed .commit)
    (run : HookRunner) (s : Session) : m.Obeys run may s := by
  cases m with
  | perform key op => exact fun t _ => h _ op hm
  | within name p => exact ⟨Program.Asks.obeys hm h _, fun _ => h _ _ hcommit⟩
  | _ => trivial

namespace Session

/-- A move changes the committed entity under an id for which a transaction is still to put one. -/
def Crosses (run : HookRunner) (s : Session) (m : Move) : Prop :=
  ∃ key t id, (s.move run m).transactions.find? key = some t ∧ t.modified.contains id = true ∧
    (s.move run m).store.backend.table.find? id ≠ s.store.backend.table.find? id

/-- Something is known of the committed entities and of the working set of every transaction. -/
structure Kept (P : Entity → Prop) (Rel : Option Entity → Entity → Properties → Prop)
    (calls : Callback → Prop) (s : Session) : Prop where
  committed : ∀ {id e}, s.store.backend.table.find? id = some e → P e
  held : ∀ {key t}, s.transactions.find? key = some t → Work.Kept P Rel calls ⟨s.store, t⟩

variable {P : Entity → Prop} {Rel : Option Entity → Entity → Properties → Prop}
  {calls : Callback → Prop} {mute : Prop} {run : HookRunner} {s : Session} {m : Move}
  {J : Store → Prop} {may : Work → Operation → Prop}

theorem kept_start {store : Store}
    (h : ∀ {id e}, store.backend.table.find? id = some e → P e) : (start store).Kept P Rel calls :=
  ⟨h, fun hf => by simp [start] at hf⟩

theorem kept_begin {store : Store}
    (h : ∀ {id e}, store.backend.table.find? id = some e → P e) (name : String) {store' : Store}
    (htable : store'.backend.table = store.backend.table) :
    Work.Kept P Rel calls ⟨store', (store.begin name).txn⟩ where
  pending hf := by simp [Store.begin, Transaction.new] at hf
  unrecorded _ := rfl
  committed hf := h (htable ▸ hf)
  apart := .of_empty rfl
  checking := rfl
  callbacks c hc := by simp [Store.begin, Transaction.new] at hc

theorem kept_elsewhere {store store' : Store} {t : Transaction}
    (h : Work.Kept P Rel calls ⟨store, t⟩)
    (hcommitted : ∀ {id e}, store'.backend.table.find? id = some e → P e)
    (hrel : ∀ id e d, t.modified.contains id = true → Rel (store.backend.table.find? id) e d →
      Rel (store'.backend.table.find? id) e d) : Work.Kept P Rel calls ⟨store', t⟩ where
  pending hf := by
    obtain ⟨d, hd, he, hd'⟩ := h.pending hf
    exact ⟨d, hd, he, hrel _ _ _ (Index.contains_iff_find?.2 ⟨_, hf⟩) hd'⟩
  unrecorded := h.unrecorded
  committed := hcommitted
  apart := h.apart
  checking := h.checking
  callbacks := h.callbacks

section Moves

variable (h : Work.Accounts P Rel mute) (hJ : Store.Carries P Rel calls J)
  (hmay : Operation.Respects P Rel calls mute may) (hrun : Honours run)
include h hJ hmay hrun

theorem kept_perform {key : String} {op : Operation} {t : Transaction}
    (hm : (Move.perform key op).Obeys run may s) (hs : s.Kept P Rel calls) (hj : J s.store)
    (ht : s.transactions.find? key = some t) :
    (op.perform run ⟨s.store, t⟩).2.Kept P Rel calls ∧ J (op.perform run ⟨s.store, t⟩).2.store :=
  (Work.kept_upholds h hJ hmay hrun).perform (hm t ht) ⟨hs.held ht, hj⟩

/-- What a move leaves in the store. -/
theorem Kept.store_move (hs : s.Kept P Rel calls) (hj : J s.store) (hm : m.Obeys run may s) :
    (∀ id e, (s.move run m).store.backend.table.find? id = some e → P e) ∧
      (¬ m.Listens → J (s.move run m).store) := by
  cases m with
  | begin key name =>
    refine ⟨fun _ _ hf => hs.committed ((begin_same s key name).2 ▸ hf), fun _ => ?_⟩
    have hbegun := hJ.still hj (s.store.still_begin name)
    rw [move, begin]
    cases s.transactions.find? key with
    | none => exact hbegun
    | some old => exact hJ.still hbegun (Work.still_drop ⟨_, old⟩)
  | drop key =>
    refine ⟨fun _ _ hf => hs.committed ((session_drop_same s key).2 ▸ hf), fun _ => ?_⟩
    rw [move, drop]
    cases s.transactions.find? key with
    | none => exact hj
    | some t => exact hJ.still hj (Work.still_drop ⟨_, t⟩)
  | perform key op =>
    simp only [move, perform]
    cases ht : s.transactions.find? key with
    | none => exact ⟨fun _ _ => hs.committed, fun _ => hj⟩
    | some t =>
      obtain ⟨hkept, hj'⟩ := kept_perform h hJ hmay hrun hm hs hj ht
      exact ⟨fun _ _ => hkept.committed, fun _ => hj'⟩
  | within name p =>
    have hbegin : (s.store.begin name).Kept P Rel calls ∧ J (s.store.begin name).store :=
      ⟨kept_begin hs.committed name rfl, hJ.still hj (s.store.still_begin name)⟩
    obtain ⟨w, ⟨hkept, hj'⟩, hstill⟩ := (Work.kept_upholds h hJ hmay hrun).within hm hbegin
    exact ⟨fun _ _ hf => hkept.committed (hstill.table ▸ hf), fun _ => hJ.still hj' hstill⟩
  | subscribe listener => exact ⟨fun _ _ => hs.committed, fun hnot => absurd trivial hnot⟩
  | unsubscribe listener => exact ⟨fun _ _ => hs.committed, fun hnot => absurd trivial hnot⟩
  | drain listener => exact ⟨fun _ _ => hs.committed, fun hnot => absurd trivial hnot⟩

/-- What is known stays known, if no move crosses or the committed entities have no part in it. -/
theorem Kept.move (hs : s.Kept P Rel calls) (hj : J s.store) (hm : m.Obeys run may s)
    (hcross : (∀ b b' e d, Rel b e d → Rel b' e d) ∨ ¬ s.Crosses run m) :
    (s.move run m).Kept P Rel calls := by
  have hcommitted := (hs.store_move h hJ hmay hrun hj hm).1
  refine ⟨hcommitted _ _, fun {key t} ht => ?_⟩
  have elsewhere : Work.Kept P Rel calls ⟨s.store, t⟩ →
      Work.Kept P Rel calls ⟨(s.move run m).store, t⟩ := by
    intro hkept
    refine kept_elsewhere hkept (hcommitted _ _) fun id e d hput hrel => ?_
    rcases hcross with hstable | hnot
    · exact hstable _ _ e d hrel
    · rwa [Classical.byContradiction fun hne => hnot ⟨key, t, id, ht, hput, hne⟩]
  rcases find?_move ht with hheld | ⟨name, rfl⟩ | ⟨op, old, rfl, hold, rfl⟩
  · exact elsewhere (hs.held hheld)
  · exact elsewhere (kept_begin hs.committed name rfl)
  · have hkept := (kept_perform h hJ hmay hrun hm hs hj hold).1
    simp only [Session.move, Session.perform, hold]
    exact hkept

end Moves

end Session

end EntityStore
