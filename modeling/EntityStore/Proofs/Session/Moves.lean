import EntityStore.Proofs.Transaction.Adjustments
import EntityStore.Session.Basic

/-!
# Runs of a session

What clients can do with a store, at its most general: they begin transactions, drop them, perform
any operation in any of them, run whole programs in transactions of their own, and listen to the
feed, in any order. A run is a row of such moves, each of which may be restricted.

A move is one step, and a commit with all of its repair is one move. So the operations of
transactions interleave here in every way, but not within an operation: two threads whose commits
overlap make no run.
-/

namespace EntityStore

/-- One move of a client. -/
inductive Move where
  | begin (key name : String)
  | drop (key : String)
  /-- Performs an operation in the transaction under a key. -/
  | perform (key : String) (op : Operation)
  /-- Runs a program in a transaction of its own. -/
  | within (name : String) (program : Program (Result Unit))
  | subscribe (listener : String)
  | unsubscribe (listener : String)
  | drain (listener : String)

namespace Move

/-- Every operation of a move is allowed. -/
def Asks (allowed : Operation → Prop) : Move → Prop
  | perform _ op => allowed op
  | within _ p => p.Asks allowed
  | _ => True

/-- Moves that concern the feed only. -/
def Listens : Move → Prop
  | subscribe _ | unsubscribe _ | drain _ => True
  | _ => False

end Move

namespace Session

/-- Performs an operation in the transaction under a key, if one is held there. -/
def perform (run : HookRunner) (s : Session) (key : String) (op : Operation) : Session :=
  match s.transactions.find? key with
  | none => s
  | some t =>
    let w := (op.perform run ⟨s.store, t⟩).2
    { s with store := w.store, transactions := s.transactions.insert key w.txn }

/-- Runs a program in a transaction of its own. -/
def within (run : HookRunner) (s : Session) (name : String) (program : Program (Result Unit)) :
    Result Unit × Session :=
  let (result, store) := s.store.within run name (program.run run)
  (result, { s with store := store })

/-- Makes a move. -/
def move (run : HookRunner) (s : Session) : Move → Session
  | .begin key name => s.begin key name
  | .drop key => (s.drop key).2
  | .perform key op => s.perform run key op
  | .within name program => (s.within run name program).2
  | .subscribe listener =>
    let (listeners, feed) := s.listeners.subscribe listener s.store.feed
    { s with listeners := listeners }.onStore ({ · with feed := feed })
  | .unsubscribe listener =>
    let (_, listeners, feed) := s.listeners.unsubscribe listener s.store.feed
    { s with listeners := listeners }.onStore ({ · with feed := feed })
  | .drain listener => s.onStore ({ · with feed := (s.listeners.drain listener s.store.feed).2 })

variable {run : HookRunner} {may : Session → Move → Prop} {s s' : Session}

/-- The sessions that a run of permitted moves leads to. -/
inductive Reach (run : HookRunner) (may : Session → Move → Prop) (s : Session) : Session → Prop
  | refl : Reach run may s s
  | move {u : Session} {m : Move} : Reach run may s u → may u m → Reach run may s (u.move run m)

theorem store_within (run : HookRunner) (s : Session) (name : String)
    (p : Program (Result Unit)) :
    (s.within run name p).2.store = (s.store.within run name (p.run run)).2 := rfl

/-! ## Transactions held -/

theorem find?_begin (s : Session) (key name other : String) :
    (s.begin key name).transactions.find? other =
      if key = other then some (s.store.begin name).txn else s.transactions.find? other := by
  have hbegun : (s.begin key name).transactions =
      s.transactions.insert key (s.store.begin name).txn := by
    rw [Session.begin]
    cases s.transactions.find? key <;> rfl
  rw [hbegun, OrderedMap.find?_insert]

theorem find?_drop (s : Session) (key other : String) :
    (s.drop key).2.transactions.find? other =
      if key = other then none else s.transactions.find? other := by
  rw [Session.drop]
  cases h : s.transactions.find? key with
  | none =>
    by_cases hkey : key = other
    · exact (hkey ▸ h).trans (if_pos hkey).symm
    · exact (if_neg hkey).symm
  | some t => exact OrderedMap.find?_erase _ _ _

theorem find?_perform {key : String} {t : Transaction} (h : s.transactions.find? key = some t)
    (op : Operation) : (s.perform run key op).transactions.find? key =
      some (op.perform run ⟨s.store, t⟩).2.txn := by
  simp only [perform, h, OrderedMap.find?_insert, if_true]

theorem find?_perform_of_ne {key other : String} (h : key ≠ other) (op : Operation) :
    (s.perform run key op).transactions.find? other = s.transactions.find? other := by
  rw [Session.perform]
  cases s.transactions.find? key with
  | none => rfl
  | some t => exact (OrderedMap.find?_insert _ _ _ _).trans (if_neg h)

/-- A transaction that is held after a move was held before, or has begun in the move, or has just
performed an operation. -/
theorem find?_move {m : Move} {key : String} {t' : Transaction}
    (h : (s.move run m).transactions.find? key = some t') :
    s.transactions.find? key = some t' ∨ (∃ name, t' = (s.store.begin name).txn) ∨
      ∃ op t, m = .perform key op ∧ s.transactions.find? key = some t ∧
        t' = (op.perform run ⟨s.store, t⟩).2.txn := by
  cases m with
  | begin other name =>
    rw [move, find?_begin] at h
    split at h
    · cases h
      exact .inr (.inl ⟨name, rfl⟩)
    · exact .inl h
  | drop other =>
    rw [move, find?_drop] at h
    split at h
    · cases h
    · exact .inl h
  | perform other op =>
    rw [move] at h
    by_cases hkey : other = key
    · subst hkey
      cases ht : s.transactions.find? other with
      | none =>
        rw [perform, ht] at h
        exact .inl (ht.symm.trans h)
      | some t =>
        rw [find?_perform ht] at h
        cases h
        exact .inr (.inr ⟨op, t, rfl, rfl, rfl⟩)
    · rw [find?_perform_of_ne hkey] at h
      exact .inl h
  | within _ _ | subscribe _ | unsubscribe _ | drain _ => exact .inl h

/-! ## Runs -/

theorem Reach.invariant {I : Session → Prop} (h : Reach run may s s') (hs : I s)
    (hI : ∀ u m, I u → may u m → I (u.move run m)) : I s' := by
  induction h with
  | refl => exact hs
  | move _ hm ih => exact hI _ _ ih hm

theorem Reach.trans {u : Session} (h : Reach run may s u) (h' : Reach run may u s') :
    Reach run may s s' := by
  induction h' with
  | refl => exact h
  | move _ hm ih => exact .move ih hm

/-- Makes moves in order. -/
def moves (run : HookRunner) (s : Session) (ms : List Move) : Session := ms.foldl (move run) s

/-- Every move of a list is permitted when its turn comes. -/
def Permits (run : HookRunner) (may : Session → Move → Prop) : Session → List Move → Prop
  | _, [] => True
  | s, m :: rest => may s m ∧ Permits run may (s.move run m) rest

theorem reach_moves {ms : List Move} (h : Permits run may s ms) :
    Reach run may s (s.moves run ms) := by
  induction ms generalizing s with
  | nil => exact .refl
  | cons m rest ih => exact (Reach.move .refl h.1).trans (ih h.2)

end Session

end EntityStore
