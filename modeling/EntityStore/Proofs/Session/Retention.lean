import EntityStore.Proofs.Session.Quiescence
import EntityStore.Proofs.Transaction.Retention

/-!
# Commits that fail in a session

Whatever clients, hooks and callbacks have done before, a commit that fails leaves its transaction
active with everything that was pending.

Main statement: `Session.failed_commits_lose_nothing`.
-/

namespace EntityStore

namespace Session

variable {hooks : Hooks} {level : Nat} {may : Session → Move → Prop} {store : Store} {s : Session}

/-- A commit that fails, for whatever reason, leaves its transaction active. What was taken away
still is, what was to be put still is or is taken away now, nothing is both, something is recorded
of every entity to be put if it was before, and the callbacks still wait in their order. -/
theorem failed_commits_lose_nothing (hcourse : (start store).Course (hooks.runner level) may s) :
    (∀ key t, s.transactions.find? key = some t → t.state = .active →
      ∀ err w, Work.commit (hooks.runner level) ⟨s.store, t⟩ = (.error err, w) →
        t.Survives w.txn) ∧
    ∀ name (α : Type) (p : Program α) (u : Work),
      u = (p.run (hooks.runner level) (s.store.begin name)).2 → u.txn.state = .active →
        ∀ err w, u.commit (hooks.runner level) = (.error err, w) → u.txn.Survives w.txn := by
  obtain ⟨hquiet, hquietOwn⟩ := maintained_of_course .none
    (Transaction.quiet_maintained _)
    Store.quiescent_begin hcourse
  obtain ⟨horder, horderOwn⟩ := maintained_of_course (fun _ => False)
    (Transaction.consistent_maintained _) (fun _ _ => .of_empty rfl rfl) hcourse
  refine ⟨fun key t ht hactive err w h => ?_, fun name α p u hu hactive err w h => ?_⟩
  · exact Work.commit_error_retains hooks level hactive (hquiet key t ht) (horder key t ht).apart h
  · subst hu
    exact Work.commit_error_retains hooks level hactive (hquietOwn name α p)
      (horderOwn name α p).apart h

/-- One probe deletes a customer and registers a callback whenever it is checked. Another always
fails. -/
def interfering : Hooks := fun hook e =>
  match hook, e.id with
  | .check, "first" =>
    .ask (.delete "ada") fun reply => .ask (.afterCommit (.silent "told")) fun _ =>
      .done ⟨e.body, reply⟩
  | .check, "second" => .done ⟨e.body, .error (.illegalState "not yet")⟩
  | _, _ => .done ⟨e.body, .ok ()⟩

def interference : List Move :=
  [.begin "t" "tries", .perform "t" (.persist ⟨"first", .probe .empty⟩),
    .perform "t" (.persist ⟨"second", .probe .empty⟩), .perform "t" (.delete "old"),
    .perform "t" (.afterCommit (.silent "asked"))]

/-- The commit fails in its second pass, when a customer is deleted already and two more callbacks
wait. -/
theorem meddled_commit_loses_nothing :
    let run := interfering.runner 1
    let s := (start (Store.new .standard (.plain [⟨"ada", .customer "Ada"⟩]))).moves run interference
    (s.transactions.find? "t").any (fun t =>
      let (result, w) := Work.commit run ⟨s.store, t⟩
      t.isActive && !result.isOk && w.txn.deleted.keys = ["ada", "old"] &&
        w.txn.modified.ids = ["first", "second"] &&
        w.txn.callbacks.map Callback.tag = ["asked", "told", "told"]) = true ∧
    ∀ t, s.transactions.find? "t" = some t → t.state = .active ∧
      ∃ err w, Work.commit run ⟨s.store, t⟩ = (.error err, w) ∧ t.Survives w.txn := by
  intro run s
  have hreach : Reach run (fun _ _ => True) _ s :=
    reach_moves ⟨trivial, trivial, trivial, trivial, trivial, trivial⟩
  refine ⟨by decide +kernel, fun t ht => ?_⟩
  have hfails : (s.transactions.find? "t").all (fun t =>
      t.isActive && !(Work.commit run ⟨s.store, t⟩).1.isOk) = true := by decide +kernel
  rw [ht, Option.all_some, Bool.and_eq_true] at hfails
  have hactive : t.state = .active := of_decide_eq_true hfails.1
  cases hcommit : Work.commit run ⟨s.store, t⟩ with
  | mk result w =>
    rw [hcommit] at hfails
    cases result with
    | ok _ => exact absurd hfails.2 (by simp [Except.isOk, Except.toBool])
    | error err =>
      exact ⟨hactive, err, w, rfl,
        (failed_commits_lose_nothing hreach.course).1 "t" t ht hactive err w hcommit⟩

end Session

end EntityStore
