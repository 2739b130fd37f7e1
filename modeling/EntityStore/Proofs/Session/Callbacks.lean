import EntityStore.Proofs.Session.AllOrNothing
import EntityStore.Proofs.Session.Chronicle
import EntityStore.Proofs.Transaction.Closing

/-!
# Callbacks over a run

While a session goes on, the history of each transaction that it holds grows with the events of its
operations, whatever happens in other transactions in between. From the history follows what has
become of every callback: the first event after its registration that closes the queue takes it up,
and no other does.

Main statement: `Session.callbacks_run_when_due`.
-/

namespace EntityStore

namespace Transaction

/-- The callbacks of a transaction follow from its history. -/
structure Follows (history : List Event) (t : Transaction) : Prop where
  waiting : t.callbacks = Event.waiting history
  /-- Each callback that was registered to wait was taken up once, in the order of registration, or
  waits still. -/
  once : history.filterMap Event.queued? = history.flatMap Event.taken ++ t.callbacks
  /-- Each event occurred while those waited that are due by the history before it. -/
  occurs : ∀ {before e later}, history = before ++ e :: later → ∃ u v : Work, u.txn.id = t.id ∧
    u.txn.callbacks = Event.waiting before ∧ u.Occurs e v ∧ e.Shows t.id u.store v.store
  /-- The first event after a registration that closes the queue takes the callback up, after those
  that waited before it and before those that were registered since. -/
  taken : ∀ {before c since e later},
    history = before ++ .queued c :: (since ++ e :: later) → (∀ e ∈ since, e.closes = false) →
    e.closes = true → e.taken = Event.waiting before ++ c :: since.filterMap Event.queued?
  /-- Until then the callback waits. -/
  kept : ∀ {before c since}, history = before ++ .queued c :: since →
    (∀ e ∈ since, e.closes = false) →
    t.callbacks = Event.waiting before ++ c :: since.filterMap Event.queued?

namespace Event

theorem waiting_since {before since : List Event} {c : Callback}
    (hopen : ∀ e ∈ since, e.closes = false) :
    waiting (before ++ .queued c :: since) = waiting before ++ c :: since.filterMap queued? := by
  rw [waiting, List.foldl_append, List.foldl_cons, foldl_after_of_not_closes hopen]
  exact List.append_assoc _ [c] _

end Event

namespace Follows

variable {history more : List Event} {t : Transaction} {w w' : Work}

theorem of_occurs (hwaiting : t.callbacks = Event.waiting history)
    (honce : history.filterMap Event.queued? = history.flatMap Event.taken ++ t.callbacks)
    (hoccurs : ∀ {before e later}, history = before ++ e :: later → ∃ u v : Work,
      u.txn.id = t.id ∧ u.txn.callbacks = Event.waiting before ∧ u.Occurs e v ∧
        e.Shows t.id u.store v.store) : t.Follows history where
  waiting := hwaiting
  once := honce
  occurs := hoccurs
  taken {before c since e later} heq hopen hcloses := by
    rw [← List.cons_append, ← List.append_assoc] at heq
    obtain ⟨u, v, -, hcallbacks, hoccur, -⟩ := hoccurs heq
    rw [hoccur.taken hcloses, hcallbacks, Event.waiting_since hopen]
  kept heq hopen := by rw [hwaiting, heq, Event.waiting_since hopen]

theorem nil (h : t.callbacks = []) : t.Follows [] := by
  refine of_occurs h h.symm fun heq => ?_
  cases List.append_eq_nil_iff.1 heq.symm |>.2

/-- The history goes on with the events of an operation. -/
theorem extend (h : w.txn.Follows history) (hmore : w.Undergoes more w') :
    w'.txn.Follows (history ++ more) := by
  refine of_occurs ?_ ?_ fun {before e later} heq => ?_
  · rw [hmore.callbacks, h.waiting, Event.waiting, Event.waiting, List.foldl_append]
  · rw [List.filterMap_append, List.flatMap_append, h.once, List.append_assoc, hmore.balance,
      List.append_assoc]
  · rw [hmore.id]
    -- an event of the operation comes upon what the history and the events before it leave
    have own {since : List Event} (hbefore : before = history ++ since)
        (hsplit : more = since ++ e :: later) : ∃ u v : Work, u.txn.id = w.txn.id ∧
          u.txn.callbacks = Event.waiting before ∧ u.Occurs e v ∧
            e.Shows w.txn.id u.store v.store := by
      subst hbefore hsplit
      obtain ⟨u, v, hpre, hoccur, -⟩ := hmore.split
      refine ⟨u, v, hpre.id, ?_, hoccur, hpre.id ▸ hoccur.shows⟩
      rw [hpre.callbacks, h.waiting, Event.waiting, Event.waiting, List.foldl_append]
    rcases List.append_eq_append_iff.1 heq with ⟨since, hbefore, hsplit⟩ | ⟨rest, hsplit, hrest⟩
    · exact own hbefore hsplit
    · rcases List.cons_eq_append_iff.1 hrest with ⟨rfl, hmore'⟩ | ⟨later, rfl, -⟩
      · have hbefore : before = history ++ [] := by rw [hsplit, List.append_nil, List.append_nil]
        exact own hbefore hmore'
      · exact h.occurs hsplit

end Follows

end Transaction

/-- Moves other than those that begin, drop or go on with the transaction under a key. -/
def Move.Spares (key : String) : Move → Prop
  | .begin other _ | .drop other | .perform other _ => other ≠ key
  | _ => True

namespace Session

open Transaction (Event)

variable {run : HookRunner} {s : Session} {key : String} {t : Transaction} {history : List Event}

/-- The history of the transaction under a key, from its beginning on. -/
inductive Life (run : HookRunner) (key : String) : Session → List Event → Prop
  | begun (s : Session) (name : String) : Life run key (s.begin key name) []
  | performed {s : Session} {history more : List Event} {t : Transaction} {op : Operation} :
      Life run key s history → s.transactions.find? key = some t →
      Work.Undergoes ⟨s.store, t⟩ more (op.perform run ⟨s.store, t⟩).2 →
      Life run key (s.perform run key op) (history ++ more)
  | elsewhere {s : Session} {history : List Event} {m : Move} :
      Life run key s history → m.Spares key → Life run key (s.move run m) history

theorem find?_of_spares {m : Move} (h : m.Spares key) :
    (s.move run m).transactions.find? key = s.transactions.find? key := by
  cases m with
  | begin other name => exact (find?_begin s other name key).trans (if_neg h)
  | drop other => exact (find?_drop s other key).trans (if_neg h)
  | perform other op => exact find?_perform_of_ne h op
  | within _ _ | subscribe _ | unsubscribe _ | drain _ => rfl

/-- From the history of a transaction follow its callbacks. -/
theorem Life.follows (h : Life run key s history) :
    ∃ t, s.transactions.find? key = some t ∧ t.Follows history := by
  induction h with
  | begun s name => exact ⟨_, (find?_begin s key name key).trans (if_pos rfl), .nil rfl⟩
  | performed _ ht hmore ih =>
    obtain ⟨t', ht', hfollows⟩ := ih
    cases ht.symm.trans ht'
    exact ⟨_, find?_perform ht _, Transaction.Follows.extend hfollows hmore⟩
  | elsewhere _ hspares ih =>
    rw [find?_of_spares hspares]
    exact ih

/-- Every transaction that is held has a history. -/
theorem Reach.lives {hooks : Hooks} {level : Nat} {may : Session → Move → Prop} {store : Store}
    (h : Reach (hooks.runner level) may (start store) s) :
    ∀ {key t}, s.transactions.find? key = some t →
      ∃ history, Life (hooks.runner level) key s history := by
  induction h with
  | refl => exact fun ht => nomatch ht
  | @move u m _ _ ih =>
    intro key t ht
    by_cases hspares : m.Spares key
    · rw [find?_of_spares hspares] at ht
      obtain ⟨history, hlife⟩ := ih ht
      exact ⟨history, hlife.elsewhere hspares⟩
    · cases m with
      | begin other name =>
        obtain rfl := not_not.1 hspares
        exact ⟨[], .begun u name⟩
      | drop other =>
        obtain rfl := not_not.1 hspares
        exact nomatch ht.symm.trans ((find?_drop u other other).trans (if_pos rfl))
      | perform other op =>
        obtain rfl := not_not.1 hspares
        cases hheld : u.transactions.find? other with
        | none =>
          rw [Session.move, Session.perform, hheld] at ht
          exact nomatch ht.symm.trans hheld
        | some t =>
          obtain ⟨history, hlife⟩ := ih hheld
          obtain ⟨more, hmore⟩ := Work.undergoes_perform hooks level op ⟨u.store, t⟩
          exact ⟨_, hlife.performed hheld hmore⟩
      | within _ _ | subscribe _ | unsubscribe _ | drain _ => exact absurd trivial hspares

/-- The history of a transaction of its own, until it is let go of. -/
theorem follows_within (hooks : Hooks) (level : Nat) (s : Session) (name : String)
    (p : Program (Result Unit)) :
    ∃ history w, (s.store.begin name).Undergoes history w ∧ w.txn.Follows history ∧
      w.store.Unmoved (s.within (hooks.runner level) name p).2.store ∧
      ((s.within (hooks.runner level) name p).1 = .ok () →
        ∃ before e, history = before ++ [e] ∧ e.calls = true) := by
  obtain ⟨es, hes⟩ := Work.undergoes_program hooks level p (s.store.begin name)
  have hbegun : (s.store.begin name).txn.Follows [] := .nil rfl
  have hfollows {history : List Event} {w : Work} (h : (s.store.begin name).Undergoes history w) :
      w.txn.Follows history := hbegun.extend h
  rw [store_within, within]
  rcases s.store.within_cases (hooks.runner level) name (p.run (hooks.runner level)) with
    ⟨err, -, heq⟩ | ⟨_, -, err, w, hcommit, heq⟩ | ⟨_, -, w, hcommit, heq⟩ <;> rw [heq]
  · obtain ⟨more, hmore⟩ := Work.undergoes_perform hooks level .rollback
      (p.run (hooks.runner level) (s.store.begin name)).2
    exact ⟨_, _, hes.trans hmore, hfollows (hes.trans hmore), Work.unmoved_drop _,
      fun hok => by cases hok⟩
  · obtain ⟨more, -, hmore, -⟩ := Work.undergoes_commit_error hcommit
    exact ⟨_, _, hes.trans hmore, hfollows (hes.trans hmore), Work.unmoved_drop _,
      fun hok => by cases hok⟩
  · rcases Work.undergoes_commit_ok hcommit with ⟨-, hmore⟩ | ⟨-, more, b, c, -, hmore⟩
    · exact ⟨_, _, hes.trans hmore, hfollows (hes.trans hmore), Work.unmoved_drop _,
        fun _ => ⟨es, _, rfl, rfl⟩⟩
    · exact ⟨_, _, hes.trans hmore, hfollows (hes.trans hmore), Work.unmoved_drop _,
        fun _ => ⟨es ++ more, _, (List.append_assoc _ _ _).symm, rfl⟩⟩

/-- A session that treats the callbacks of its transactions as it should. -/
structure Dutiful (run : HookRunner) (s : Session) : Prop where
  lives : ∀ {key t}, s.transactions.find? key = some t → ∃ history, Life run key s history
  follows : ∀ {key history}, Life run key s history →
    ∃ t, s.transactions.find? key = some t ∧ t.Follows history
  held : ∀ {key t}, s.transactions.find? key = some t → Work.Dutiful run ⟨s.store, t⟩
  /-- No callback runs because a transaction is let go of, be it for another one. -/
  dropped : ∀ key, s.store.Unmoved (s.drop key).2.store ∧
    (s.drop key).2.transactions.find? key = none
  begun : ∀ key name, s.store.Unmoved (s.begin key name).store ∧
    (s.begin key name).transactions.find? key = some (s.store.begin name).txn
  /-- A transaction of its own has such a history, and success runs what has waited. -/
  within : ∀ name p, ∃ history w, (s.store.begin name).Undergoes history w ∧
    w.txn.Follows history ∧ w.store.Unmoved (s.within run name p).2.store ∧
    ((s.within run name p).1 = .ok () → ∃ before e, history = before ++ [e] ∧ e.calls = true)

/-- Whatever clients, hooks and callbacks do, whichever way changes are written and whatever the
backend makes of them: a callback that is registered to wait is taken up at most once, by the first
event thereafter that closes the queue. A write that succeeds and a commit of nothing run all that
wait, in the order of registration; a rollback forgets them, and so does letting go of the
transaction; a commit that fails leaves them waiting. -/
theorem callbacks_run_when_due {hooks : Hooks} {level : Nat} {store : Store} {s : Session}
    (hreach : Reach (hooks.runner level) (fun _ _ => True) (start store) s) :
    s.Dutiful (hooks.runner level) where
  lives := hreach.lives
  follows := Life.follows
  held _ := Work.dutiful hooks level _
  dropped key := ⟨s.unmoved_session_drop key, (find?_drop s key key).trans (if_pos rfl)⟩
  begun key name := ⟨s.unmoved_begin key name, (find?_begin s key name key).trans (if_pos rfl)⟩
  within := follows_within hooks level s

/-- The moves of a client who has two callbacks wait for a commit that fails at first. -/
def persistence : List Move :=
  [.begin "a" "order", .perform "a" (.afterCommit (.silent "receipt")),
    .perform "a" (.persist ⟨"ada", .customer "Ada"⟩), .perform "a" (.afterCommit audit),
    .perform "a" .commit]

/-- The callbacks wait until the commit succeeds. They run in order, though the second one has
another batch written. -/
theorem persistence_pays :
    let run := hookless.runner 1
    let s := (start (Store.new .standard (.failing 1 []))).moves run persistence
    let s' := s.move run (.perform "a" .commit)
    let tags := fun s : Session => s.store.journal.filterMap fun
      | .callback tag size _ => some (tag, size)
      | _ => none
    s.Dutiful run ∧ s'.Dutiful run ∧
      ((s.transactions.find? "a").map fun t => t.callbacks.map (·.tag)) =
        some ["receipt", "audit"] ∧
      tags s = [] ∧ s.store.backend.memory.batchesApplied = 0 ∧
      ((s'.transactions.find? "a").map fun t => t.callbacks.map (·.tag)) = some [] ∧
      tags s' = [("receipt", 1), ("audit", 1)] ∧ s'.store.backend.memory.batchesApplied = 2 := by
  intro run s s' tags
  have hreach : Reach run (fun _ _ => True) (start (Store.new .standard (.failing 1 []))) s :=
    reach_moves ⟨trivial, trivial, trivial, trivial, trivial, trivial⟩
  refine ⟨callbacks_run_when_due hreach, callbacks_run_when_due (hreach.move trivial), ?_⟩
  decide +kernel

end Session

end EntityStore
