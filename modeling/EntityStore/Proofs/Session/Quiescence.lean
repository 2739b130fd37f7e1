import EntityStore.Proofs.Hook.Honesty
import EntityStore.Proofs.Session.Courses

/-!
# No restart is asked for in vain

Clients never see the signal by which a deletion asks for a restart, and between their operations no
transaction carries a mark of anything under way.

Main statement: `Session.restarts_never_escape`.
-/

namespace EntityStore

namespace Store

/-- What the backend gives stays what it is, however often it was asked. -/
theorem standing_proper : Standing Proper where
  stirs h hstirs := by
    unfold Proper at h ⊢
    rwa [hstirs.instrument]
  update {s batch result b} h hupdate := by
    intro verdict offered rejected hgate
    unfold Backend.update at hupdate
    split at hupdate
    · rename_i hplain
      cases hupdate
      exact absurd (hplain.symm.trans hgate) (by simp)
    · rename_i hrecorder
      cases hupdate
      exact absurd (hrecorder.symm.trans hgate) (by simp)
    · rename_i verdict' offered' rejected' hheld
      have hproper := h verdict' offered' rejected' hheld
      split at hupdate
      all_goals
        cases hupdate
        cases hgate
        exact hproper
  publish _ h := h
  countBatch _ _ h := h
  begins _ h := h
  listens h _ := h

theorem proper_plain (config : Config) (entities : List Entity) :
    (new config (.plain entities)).Proper := nofun

theorem proper_recording (config : Config) (entities : List Entity) :
    (new config (.recording entities)).Proper := nofun

theorem proper_failing (config : Config) (failures : Nat) (entities : List Entity) :
    (new config (.failing failures entities)).Proper := by
  intro verdict offered rejected hgate n b
  cases hgate
  unfold Backend.rejectFirst
  split <;> simp

end Store

theorem calm_narrates :
    Narrates (fun _ op => op.Registers Callback.Transacts) (fun _ => True)
      (fun (_ : Unit) => Store.Proper) (fun around (_ : Unit) t => t.Quiet around) .none :=
  Store.standing_proper.narrates (Transaction.quiet_maintained _)
    (fun hop => (hop _ rfl).keeps Store.standing_proper)
    fun name _ => Store.quiescent_begin _ name

namespace Program

variable {α : Type} {allowed : Operation → Prop} {run : HookRunner} {P : Work → Prop}
  {Q : Work → Operation → Prop}

theorem Asks.obeys_along {p : Program α} (hp : p.Asks allowed)
    (hstep : ∀ w op, P w → allowed op → P (op.perform run w).2 ∧ Q w op) {w : Work} (hw : P w) :
    p.Obeys run Q w ∧ P (p.run run w).2 := by
  induction p generalizing w with
  | done value => exact ⟨trivial, hw⟩
  | ask op next ih =>
    obtain ⟨hafter, hop⟩ := hstep w op hw hp.1
    obtain ⟨hrest, hend⟩ := ih _ (hp.2 _) hafter
    exact ⟨⟨hop, hrest⟩, hend⟩

end Program

namespace Session

variable {hooks : Hooks} {may : Session → Move → Prop} {store : Store} {s : Session}

section Calm

variable (hhooks : hooks.Ask (Operation.Registers Callback.Transacts)) (hhonest : hooks.Honest)
  (level : Nat)
include hhooks hhonest

/-- What an operation of a client leaves, and its reply. -/
theorem perform_calm {w : Work} (hw : w.Calm .none) {op : Operation}
    (hop : op.Registers Callback.Transacts) :
    (op.perform (hooks.runner level) w).2.Calm .none ∧
      ¬ op.Signals (op.perform (hooks.runner level) w).1 := by
  have h := calm_narrates.invariant ()
  have hobeys (level : Nat) (around : Transaction.Surroundings) (hook : Hook) (e : Entity)
      (w : Work) (_ : w.Calm around) : (hooks hook e).Obeys (hooks.runner level)
        (fun _ op => op.Registers Callback.Transacts) w :=
    (hhooks hook e).obeys (fun _ _ hop => hop) w
  have hkeeps := h.runner hobeys level
  exact ⟨h.perform hkeeps hop hw, Work.perform_silent h hkeeps hw rfl
    (fun e _ hw => hhonest.runner_silent h hobeys rfl level .delete e hw) op⟩

theorem program_calm {w : Work} (hw : w.Calm .none) {α : Type} {p : Program α}
    (hp : p.Asks (Operation.Registers Callback.Transacts)) :
    p.Obeys (hooks.runner level) (fun w op => w.txn.Quiescent ∧
        ¬ op.Signals (op.perform (hooks.runner level) w).1) w ∧
      (p.run (hooks.runner level) w).2.Calm .none := by
  refine hp.obeys_along (fun w op hw hop => ?_) hw
  obtain ⟨hafter, hsilent⟩ := perform_calm hhooks hhonest level hw hop
  exact ⟨hafter, hw.quiet, hsilent⟩

end Calm

theorem quiescent_of_reach {level : Nat} (hreach : Reach (hooks.runner level) may (start store) s) :
    (∀ key t, s.transactions.find? key = some t → t.Quiescent) ∧
    ∀ (name : String) (α : Type) (p : Program α),
      (p.run (hooks.runner level) (s.store.begin name)).2.txn.Quiescent :=
  maintained_of_course .none (Transaction.quiet_maintained _) Store.quiescent_begin hreach.course

/-- No operation of a client replies with the signal, and after each of them, whether it succeeds
or fails, no pass is under way, no entity is being checked and no commit is writing. The commit
that ends a transaction of its own does not give the signal either. -/
theorem restarts_never_escape (hhooks : hooks.Ask (Operation.Registers Callback.Transacts))
    (hhonest : hooks.Honest) {level : Nat}
    (hmay : ∀ u m, may u m → m.Asks (Operation.Registers Callback.Transacts))
    (hstore : store.Proper) (hcourse : (start store).Course (hooks.runner level) may s) :
    (∀ key t, s.transactions.find? key = some t → t.Quiescent ∧
      ∀ op : Operation, op.Registers Callback.Transacts →
        ¬ op.Signals (op.perform (hooks.runner level) ⟨s.store, t⟩).1 ∧
        (op.perform (hooks.runner level) ⟨s.store, t⟩).2.txn.Quiescent) ∧
    (∀ name (α : Type) (p : Program α), p.Asks (Operation.Registers Callback.Transacts) →
      p.Obeys (hooks.runner level) (fun w op => w.txn.Quiescent ∧
        ¬ op.Signals (op.perform (hooks.runner level) w).1) (s.store.begin name) ∧
      (p.run (hooks.runner level) (s.store.begin name)).2.txn.Quiescent) ∧
    ∀ name (p : Program (Result Unit)), p.Asks (Operation.Registers Callback.Transacts) →
      (s.within (hooks.runner level) name p).1 = .error .integrityRestart →
        (p.run (hooks.runner level) (s.store.begin name)).1 = .error .integrityRestart := by
  have hheed := hhooks.heed (fun _ _ hop => hop) fun t => ∃ around, ∃ _ : Unit, t.Quiet around
  obtain ⟨_, -, htold⟩ := calm_narrates.course (g := ()) hheed ⟨hstore, fun ht => by cases ht⟩
    (hcourse.mono fun u m hm => (hmay u m hm).registers)
  have hbegun (name : String) : (s.store.begin name).Calm .none :=
    calm_narrates.begin_tells (g := ()) htold.store name
  refine ⟨fun key t ht => ⟨(htold.held ht).1, fun op hop => ?_⟩, fun name α p hp => ?_,
    fun name p hp hsignal => ?_⟩
  · have hheld : Work.Calm .none ⟨s.store, t⟩ :=
      ⟨(), le_refl _, htold.store, (htold.held ht).1, (htold.held ht).2⟩
    obtain ⟨hafter, hsilent⟩ := perform_calm hhooks hhonest level hheld hop
    exact ⟨hsilent, hafter.quiet⟩
  · obtain ⟨hobeys, hended⟩ := program_calm hhooks hhonest level (hbegun name) hp
    exact ⟨hobeys, hended.quiet⟩
  · obtain ⟨-, hended⟩ := program_calm hhooks hhonest level (hbegun name) hp
    have hcommit :
        ¬ Operation.commit.Signals (Operation.perform (hooks.runner level) .commit _).1 :=
      (perform_calm hhooks hhonest level hended (Operation.registers_commit _)).2
    rw [Session.within] at hsignal
    rcases s.store.within_cases (hooks.runner level) name (p.run (hooks.runner level)) with
      ⟨err, herr, heq⟩ | ⟨value, -, err, w, herr, heq⟩ | ⟨value, -, w, -, heq⟩
    · rw [heq] at hsignal
      rw [herr]
      exact hsignal
    · rw [heq] at hsignal
      refine absurd ?_ hcommit
      rw [Operation.Signals, Operation.perform, herr]
      exact hsignal
    · rw [heq] at hsignal
      cases hsignal

/-- A probe that deletes a customer whenever it is checked, and fails with what it hears. -/
def dismissing : Scripts
  | "probe", .check => [⟨none, none, false, .delete "ada"⟩]
  | _, _ => []

/-- The commit of the probe is restarted once. The client hears nothing of it. -/
theorem restart_is_absorbed :
    let run := (Script.hooks .builtIn dismissing).runner 1
    let s := (start (Store.new .standard (.plain [⟨"ada", .customer "Ada"⟩]))).moves run
      [.begin "t" "t", .perform "t" (.persist ⟨"probe", .probe .empty⟩)]
    (s.perform run "t" .commit).store.statistics.integrityRestarts = 1 ∧
      ∀ t, s.transactions.find? "t" = some t → t.Quiescent ∧
        ¬ Operation.commit.Signals (Operation.perform run .commit ⟨s.store, t⟩).1 ∧
        (Operation.perform run .commit ⟨s.store, t⟩).2.txn.Quiescent := by
  intro run s
  have hhooks : (Script.hooks .builtIn dismissing).Ask (Operation.Registers Callback.Transacts) :=
    fun hook e => (Script.hooks_ask .builtIn dismissing hook e).mono fun _ hop => hop.registers _
  have hhonest := Script.hooks_honest Registry.proper_builtIn dismissing
  have hreach : Reach run (fun _ m => m.Asks (Operation.Registers Callback.Transacts))
      (start (Store.new .standard (.plain [⟨"ada", .customer "Ada"⟩]))) s := by
    refine reach_moves ⟨trivial, ?_, trivial⟩
    exact Operation.Plain.registers (show Operation.Plain (.persist _) from trivial) _
  refine ⟨by decide +kernel, fun t ht => ?_⟩
  obtain ⟨hquiet, hops⟩ := (restarts_never_escape hhooks hhonest (fun _ _ hm => hm)
    (Store.proper_plain _ _) hreach.course).1 "t" t ht
  exact ⟨hquiet, hops .commit (Operation.registers_commit _)⟩

end Session

end EntityStore
