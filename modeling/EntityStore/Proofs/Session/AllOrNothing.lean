import EntityStore.Proofs.Hook.Script
import EntityStore.Proofs.Session.Moves
import EntityStore.Proofs.Transaction.Manual

/-!
# Commits over a run

Where changes are not written at once, what others can see moves only when a commit succeeds,
however the moves of clients interleave and whatever their hooks do.
-/

namespace EntityStore

/-- Whether a commit succeeds in a move. A program is committed once it is done. -/
def Move.CommitsIn (hooks : Hooks) (level : Nat) (s : Session) : Move → Prop
  | .perform key op => ∃ t, s.transactions.find? key = some t ∧
      hooks.CommitsIn level op ⟨s.store, t⟩
  | .within name p =>
    let outcome := p.run (hooks.runner level) (s.store.begin name)
    p.Performs (hooks.runner level) (hooks.CommitsIn level) (s.store.begin name) ∨
      outcome.1 = .ok () ∧ (outcome.2.commit (hooks.runner level)).1 = .ok ()
  | _ => False

namespace Session

/-- No change is written at once in any transaction, now or to come. -/
structure Manual (s : Session) : Prop where
  config : s.store.config.autoCommit = false
  held : ∀ {key t}, s.transactions.find? key = some t →
    t.autoCommit = false ∧ ∀ c ∈ t.callbacks, c.Manual

variable {hooks : Hooks} {level : Nat} {s : Session} {m : Move}

theorem manual_start {config : Config} (h : config.autoCommit = false) (backend : Backend) :
    (start (Store.new config backend)).Manual :=
  ⟨h, fun hf => by simp [start] at hf⟩

theorem Manual.work (hs : s.Manual) {key : String} {t : Transaction}
    (h : s.transactions.find? key = some t) : Work.Manual ⟨s.store, t⟩ :=
  ⟨(hs.held h).1, hs.config, (hs.held h).2⟩

theorem Manual.begins (hs : s.Manual) (name : String) : (s.store.begin name).Manual :=
  ⟨hs.config, hs.config, fun c hc => by cases hc⟩

theorem config_drop (w : Work) : w.drop.config = w.store.config := by
  rw [Work.drop]
  split <;> rfl

/-- A program in a transaction of its own leaves the settings of its store alone. -/
theorem Manual.config_within (h : hooks.Ask Operation.Manual) (hs : s.Manual) (name : String)
    {p : Program (Result Unit)} (hp : p.Asks Operation.Manual) :
    (s.within (hooks.runner level) name p).2.store.config.autoCommit = false := by
  have hafter : (p.run (hooks.runner level) (s.store.begin name)).2.Manual :=
    hp.run_preserves (fun op hop w hw => hooks.manual_perform h level hop hw) (hs.begins name)
  have ended : ∀ op : Operation, op.Manual →
      (op.perform (hooks.runner level)
        (p.run (hooks.runner level) (s.store.begin name)).2).2.drop.config.autoCommit = false :=
    fun op hop => by
      rw [config_drop]
      exact (hooks.manual_perform h level hop hafter).config
  rw [store_within]
  rcases s.store.within_store (hooks.runner level) name (p.run (hooks.runner level)) with heq | heq
  · rw [heq]
    exact ended .rollback trivial
  · rw [heq]
    exact ended .commit trivial

theorem Manual.config_move (h : hooks.Ask Operation.Manual) (hs : s.Manual)
    (hm : m.Asks Operation.Manual) :
    (s.move (hooks.runner level) m).store.config.autoCommit = false := by
  cases m with
  | begin key name =>
    simp only [Session.move, Session.begin]
    cases s.transactions.find? key with
    | none => exact hs.config
    | some old => exact (congrArg Config.autoCommit (config_drop ⟨_, old⟩)).trans hs.config
  | drop key =>
    simp only [Session.move, Session.drop]
    cases s.transactions.find? key with
    | none => exact hs.config
    | some t => exact (congrArg Config.autoCommit (config_drop ⟨_, t⟩)).trans hs.config
  | perform key op =>
    simp only [Session.move, perform]
    cases hheld : s.transactions.find? key with
    | none => exact hs.config
    | some t => exact (hooks.manual_perform h level hm (hs.work hheld)).config
  | within name p => exact hs.config_within h name hm
  | subscribe _ | unsubscribe _ | drain _ => exact hs.config

theorem Manual.move (h : hooks.Ask Operation.Manual) (hs : s.Manual)
    (hm : m.Asks Operation.Manual) : (s.move (hooks.runner level) m).Manual := by
  refine ⟨hs.config_move h hm, fun {key t'} hf => ?_⟩
  rcases find?_move hf with hsame | ⟨name, rfl⟩ | ⟨op, t, rfl, ht, rfl⟩
  · exact hs.held hsame
  · exact ⟨(hs.begins name).autoCommit, (hs.begins name).callbacks⟩
  · have hafter := hooks.manual_perform h level hm (hs.work ht)
    exact ⟨hafter.autoCommit, hafter.callbacks⟩

/-! ## One move -/

/-- A program in which no commit succeeds, and after which none does, moves nothing. -/
theorem unmoved_within (h : hooks.Ask Operation.Manual) (hs : s.Manual) (name : String)
    {p : Program (Result Unit)} (hp : p.Asks Operation.Manual)
    (hno : ¬ Move.CommitsIn hooks level s (.within name p)) :
    s.store.Unmoved (s.within (hooks.runner level) name p).2.store := by
  simp only [Move.CommitsIn, not_or, not_and] at hno
  obtain ⟨hinside, hend⟩ := hno
  have hbegin : s.store.Unmoved (s.store.begin name).store :=
    ⟨rfl, Memory.applied_note_started _ _, rfl, rfl⟩
  have hrun := hbegin.trans (hp.unmoved (fun op hop w hw => hooks.manual_perform h level hop hw)
    (fun op hop w hw hnot => hooks.unmoved_of_not_commits h level hop hw hnot) (hs.begins name)
    hinside)
  have hmanual : (p.run (hooks.runner level) (s.store.begin name)).2.Manual :=
    hp.run_preserves (fun op hop w hw => hooks.manual_perform h level hop hw) (hs.begins name)
  rw [store_within]
  rcases s.store.within_cases (hooks.runner level) name (p.run (hooks.runner level)) with
    ⟨err, -, heq⟩ | ⟨_, -, err, u, hcommit, heq⟩ | ⟨_, hdone, u, hcommit, heq⟩ <;> rw [heq]
  · exact hrun.trans ((Work.unmoved_rollback _).trans (Work.unmoved_drop _))
  · exact hrun.trans ((Work.unmoved_of_commit_error (hooks.confines h level) hmanual hcommit).trans
      u.unmoved_drop)
  · exact absurd (congrArg Prod.fst hcommit) (hend hdone)

theorem unmoved_begin (s : Session) (key name : String) :
    s.store.Unmoved (s.begin key name).store := by
  have hbegin : s.store.Unmoved (s.store.begin name).store :=
    ⟨rfl, Memory.applied_note_started _ _, rfl, rfl⟩
  rw [Session.begin]
  cases s.transactions.find? key with
  | none => exact hbegin
  | some old => exact hbegin.trans (Work.unmoved_drop ⟨_, old⟩)

theorem unmoved_session_drop (s : Session) (key : String) :
    s.store.Unmoved (s.drop key).2.store := by
  rw [Session.drop]
  cases s.transactions.find? key with
  | none => exact .refl _
  | some t => exact Work.unmoved_drop ⟨s.store, t⟩

/-- A move in which no commit succeeds moves nothing. -/
theorem unmoved_move (h : hooks.Ask Operation.Manual) (hs : s.Manual) (hm : m.Asks Operation.Manual)
    (hlisten : ¬ m.Listens) (hno : ¬ m.CommitsIn hooks level s) :
    s.store.Unmoved (s.move (hooks.runner level) m).store := by
  cases m with
  | begin key name => exact unmoved_begin s key name
  | drop key => exact unmoved_session_drop s key
  | perform key op =>
    simp only [Session.move, perform]
    cases hheld : s.transactions.find? key with
    | none => exact .refl _
    | some t =>
      exact hooks.unmoved_of_not_commits h level hm (hs.work hheld) fun hc => hno ⟨t, hheld, hc⟩
  | within name p => exact unmoved_within h hs name hm hno
  | subscribe _ | unsubscribe _ | drain _ => exact absurd trivial hlisten

/-- A program that fails has committed inside or moves nothing. -/
theorem unmoved_of_within_error (h : hooks.Ask Operation.Manual) (hs : s.Manual) (name : String)
    {p : Program (Result Unit)} (hp : p.Asks Operation.Manual)
    (hfails : (s.within (hooks.runner level) name p).1 ≠ .ok ())
    (hno : ¬ p.Performs (hooks.runner level) (hooks.CommitsIn level) (s.store.begin name)) :
    s.store.Unmoved (s.within (hooks.runner level) name p).2.store := by
  refine unmoved_within h hs name hp ?_
  rintro (hinside | ⟨hdone, hcommit⟩)
  · exact hno hinside
  · refine hfails ?_
    rw [Session.within]
    rcases s.store.within_cases (hooks.runner level) name (p.run (hooks.runner level)) with
      ⟨err, hfailed, -⟩ | ⟨_, -, err, u, hfailed, -⟩ | ⟨_, -, u, -, heq⟩
    · rw [hdone] at hfailed
      cases hfailed
    · rw [hfailed] at hcommit
      cases hcommit
    · rw [heq]

/-- A commit in a held transaction succeeds as a whole or moves nothing. -/
theorem commit_move (h : hooks.Ask Operation.Manual) (hs : s.Manual) {key : String}
    {t : Transaction} (ht : s.transactions.find? key = some t) :
    let outcome := Work.commit (hooks.runner level) ⟨s.store, t⟩
    let s' := s.move (hooks.runner level) (.perform key .commit)
    (outcome.1 = .ok () → Work.CommitsTo ⟨s.store, t⟩ s'.store) ∧
      (outcome.1 ≠ .ok () → s.store.Unmoved s'.store) := by
  intro outcome s'
  have hstore : s'.store = outcome.2.store := by
    simp only [s', outcome, Session.move, perform, ht, Operation.perform]
  have hw := hs.work ht
  have hconfines := hooks.confines h level
  rw [hstore]
  constructor
  · intro hok
    exact Work.commit_ok hconfines hw (Prod.ext hok rfl)
  · intro hfails
    cases hresult : outcome.1 with
    | ok _ => exact absurd hresult hfails
    | error err => exact Work.unmoved_of_commit_error hconfines hw (Prod.ext hresult rfl)

theorem unmoved_rollback_move (h : hooks.Ask Operation.Manual) (hs : s.Manual) (key : String) :
    s.store.Unmoved (s.move (hooks.runner level) (.perform key .rollback)).store := by
  refine unmoved_move h hs trivial id ?_
  rintro ⟨t, -, hcommits⟩
  cases level <;> exact hcommits

/-! ## Runs -/

/-- Where changes are not written at once, what others can see moves only in moves in which a commit
succeeds. A commit that succeeds hands over one batch, or none if there is nothing to write. A
commit that fails, a rollback, a drop, and a program that fails without a commit inside it move
nothing. -/
theorem commits_are_all_or_nothing (hooks : Hooks) (hhooks : hooks.Ask Operation.Manual)
    (level : Nat) (config : Config) (hconfig : config.autoCommit = false) (backend : Backend)
    (s : Session) (hreach : Reach (hooks.runner level) (fun _ m => m.Asks Operation.Manual)
      (start (Store.new config backend)) s) :
    (∀ m : Move, m.Asks Operation.Manual → ¬ m.Listens → ¬ m.CommitsIn hooks level s →
      s.store.Unmoved (s.move (hooks.runner level) m).store) ∧
    (∀ key t, s.transactions.find? key = some t →
      let outcome := Work.commit (hooks.runner level) ⟨s.store, t⟩
      let s' := s.move (hooks.runner level) (.perform key .commit)
      (outcome.1 = .ok () → Work.CommitsTo ⟨s.store, t⟩ s'.store) ∧
        (outcome.1 ≠ .ok () → s.store.Unmoved s'.store)) ∧
    (∀ key, s.store.Unmoved (s.move (hooks.runner level) (.perform key .rollback)).store ∧
      s.store.Unmoved (s.move (hooks.runner level) (.drop key)).store) ∧
    ∀ name (p : Program (Result Unit)), p.Asks Operation.Manual →
      (s.within (hooks.runner level) name p).1 ≠ .ok () →
      ¬ p.Performs (hooks.runner level) (hooks.CommitsIn level) (s.store.begin name) →
      s.store.Unmoved (s.within (hooks.runner level) name p).2.store := by
  have hs : s.Manual :=
    hreach.invariant (manual_start hconfig backend) fun _ _ hu hm => hu.move hhooks hm
  exact ⟨fun m hm hlisten hno => unmoved_move hhooks hs hm hlisten hno,
    fun key t ht => commit_move hhooks hs ht,
    fun key => ⟨unmoved_rollback_move hhooks hs key, unmoved_session_drop s key⟩,
    fun name p hp hfails hno => unmoved_of_within_error hhooks hs name hp hfails hno⟩

theorem manual_of_plain (op : Operation) (h : op.Plain) : op.Manual := by
  cases op with
  | afterCommit _ | setAutoCommit _ | setIgnoreModifications _ | setEnsureIntegrity _ =>
    exact h.elim
  | _ => trivial

/-- A probe that puts a customer, tries to commit and fails whenever it is checked, and commits
before it is deleted. -/
def meddling : Scripts
  | "probe", .check =>
    [⟨none, none, false, .persist (Entity.properties ⟨"ada", .customer "Ada"⟩)⟩,
      ⟨none, none, true, .commit⟩, ⟨none, none, false, .fail "not today"⟩]
  | "probe", .delete => [⟨none, none, false, .commit⟩]
  | _, _ => []

theorem failing_commit_moves_nothing :
    (Script.hooks .builtIn meddling).Ask Operation.Manual ∧ Config.standard.autoCommit = false ∧
      let run := (Script.hooks .builtIn meddling).runner 2
      let s := (start (Store.new .standard (.plain []))).moves run
        [.begin "t" "t", .perform "t" (.persist ⟨"probe", .probe .empty⟩)]
      (s.transactions.find? "t").any (fun t => (Work.commit run ⟨s.store, t⟩).1 ≠ .ok ()) = true ∧
        s.store.Unmoved (s.move run (.perform "t" .commit)).store := by
  have hask : (Script.hooks .builtIn meddling).Ask Operation.Manual :=
    fun hook e => (Script.hooks_ask .builtIn meddling hook e).mono manual_of_plain
  refine ⟨hask, rfl, ?_⟩
  intro run s
  have hreach : Reach run (fun _ m => m.Asks Operation.Manual)
      (start (Store.new .standard (.plain []))) s :=
    reach_moves ⟨trivial, trivial, trivial⟩
  have hfails : (s.transactions.find? "t").any
      (fun t => (Work.commit run ⟨s.store, t⟩).1 ≠ .ok ()) = true := by decide +kernel
  refine ⟨hfails, ?_⟩
  obtain ⟨t, ht, hne⟩ := (Option.any_eq_true _ _).1 hfails
  exact ((commits_are_all_or_nothing _ hask 2 .standard rfl _ s hreach).2.1 "t" t ht).2
    (of_decide_eq_true hne)

/-- The deletion that a program performs sets off a hook that commits, so the program fails and yet
has committed. -/
theorem failing_program_has_committed :
    let run := (Script.hooks .builtIn meddling).runner 2
    let s := start (Store.new .standard (.plain []))
    let p : Program (Result Unit) := .ask (.persist ⟨"ada", .customer "Ada"⟩) fun _ =>
      .ask (.deleteEntity ⟨"probe", .probe .empty⟩) .done
    p.Asks (· ≠ .commit) ∧ (s.within run "w" p).1 ≠ .ok () ∧
      ¬ s.store.Unmoved (s.within run "w" p).2.store := by
  intro run s p
  refine ⟨⟨by simp, fun _ => ⟨by simp, fun _ => trivial⟩⟩, by decide +kernel, fun h => ?_⟩
  have hcommitted : (s.within run "w" p).2.store.backend.memory.applied.length = 1 := by
    decide +kernel
  rw [h.applied] at hcommitted
  cases hcommitted

end Session

end EntityStore
