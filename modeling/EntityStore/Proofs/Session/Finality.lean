import EntityStore.Proofs.Hook.Script
import EntityStore.Proofs.Session.AllOrNothing
import EntityStore.Proofs.Transaction.Tidiness

/-!
# Ended transactions over a run

However the moves of clients interleave and whatever their hooks do, an ended transaction keeps its
state and its working set. Nothing about it follows its end but the batch of a write at once that
was under way, and nothing is left in it but the changes of such a write.
-/

namespace EntityStore

open Work (Permitted)

/-! ## Beginning and dropping -/

namespace Work

variable {runs : HookRunner → Prop} {w : Work}

theorem Regular.drop (hw : w.Regular runs) : w.store.Passes runs (· = w.txn.id) w.drop := by
  rw [Work.drop]
  split
  · exact .refl _
  · rename_i hopen
    refine .event (.finished w.txn.id) [] rfl rfl rfl rfl hw.begun rfl (.inl ?_)
    rw [LogEntry.transaction, ← hw.finished]
    exact hopen

end Work

namespace Store

variable {runs : HookRunner → Prop} {s : Store} {mine : TransactionId → Prop}

theorem begin_passes (hs : s.Known) (name : String) : s.Passes runs mine (s.begin name).store := by
  refine ⟨⟨Nat.le_succ _, [.started ⟨s.begun + 1⟩], [], rfl, rfl, rfl, fun e he => ?_⟩,
    fun h => .inl ?_⟩
  · rw [List.mem_singleton.1 he]
    exact ⟨Nat.le_refl _, .inr (Nat.lt_succ_self _)⟩
  · exact orderly_append_singleton.2 ⟨h, fun hmem => Nat.not_succ_le_self _ (hs _ hmem)⟩

theorem begin_regular (hs : s.Known) (name : String) : (s.begin name).Regular runs := by
  have hstore : s.Passes runs (fun _ => False) (s.begin name).store := begin_passes hs name
  refine ⟨hstore.grows.known hs, Nat.le_refl _, ⟨fun h => (by cases h), fun h => ?_⟩,
    fun c hc => by cases hc⟩
  have hmem : LogEntry.finished ⟨s.begun + 1⟩ ∈
      s.backend.memory.log ++ [.started ⟨s.begun + 1⟩] := h
  simp only [List.mem_append, List.mem_singleton, reduceCtorEq, or_false] at hmem
  exact absurd (hs _ hmem) (Nat.not_succ_le_self _)

/-- A program that runs in a transaction of its own is apart from those that have begun already. -/
theorem within_passes {hooks : Hooks} {auto : Bool} {level : Nat}
    (h : hooks.Ask (Permitted auto (hooks.runners auto level))) (hs : s.Known)
    (hconfig : auto = true ∨ s.config.autoCommit = false) (name : String)
    {p : Program (Result Unit)} (hp : p.Asks (Permitted auto (hooks.runners auto level))) :
    s.Passes (hooks.runners auto level) mine
      (s.within (hooks.runner level) name (p.run (hooks.runner level))).2 := by
  have hcautious : (s.begin name).Cautious auto :=
    hconfig.imp_right fun hoff => ⟨hoff, hoff, fun c hc => by cases hc⟩
  obtain ⟨hafter, hran⟩ := hooks.lasts_run h (Nat.le_refl _) hp ⟨hcautious, begin_regular hs name⟩
  have ended : ∀ op : Operation, Permitted auto (hooks.runners auto level) op →
      s.Passes (hooks.runners auto level) mine
        (op.perform (hooks.runner level) (p.run (hooks.runner level) (s.begin name)).2).2.drop := by
    intro op hop
    have hgone := hooks.continues_perform h (Nat.le_refl _) hop hafter hran.regular
    have hwhole := hran.trans hgone
    have hdrop := hwhole.regular.drop
    rw [hwhole.id] at hdrop
    refine ((begin_passes hs name).trans (hwhole.store.trans hdrop)).mono fun id hid => .inr ?_
    rw [hid]
    exact Nat.lt_succ_self _
  rcases s.within_store (hooks.runner level) name (p.run (hooks.runner level)) with heq | heq
  · rw [heq]
    exact ended .rollback ⟨.inr trivial, fun c hc => by cases hc⟩
  · rw [heq]
    exact ended .commit ⟨.inr trivial, fun c hc => by cases hc⟩

end Store

theorem Callback.within_tame {hooks : Hooks} {level : Nat}
    (h : hooks.Ask (Permitted true (hooks.runners true level))) (tag name : String)
    {p : Program (Result Unit)} (hp : p.Asks (Permitted true (hooks.runners true level))) :
    Callback.Tame (hooks.runners true level)
      ⟨tag, fun s => (s.within (hooks.runner level) name (p.run (hooks.runner level))).2⟩ :=
  fun _ hs => Store.within_passes h hs (.inl rfl) name hp

namespace Session

/-! ## One move -/

/-- The log tells of the end of exactly those transactions that have ended, and nothing is left in
these but what a write at once has left. -/
structure Regular (runs : HookRunner → Prop) (s : Session) : Prop where
  known : s.store.Known
  held : ∀ {key t}, s.transactions.find? key = some t →
    Work.Regular runs ⟨s.store, t⟩ ∧ Work.Tidy runs ⟨s.store, t⟩
  distinct : ∀ {key other t t'}, s.transactions.find? key = some t →
    s.transactions.find? other = some t' → t'.id = t.id → other = key

/-- Changes are written at once only where that is allowed. -/
def Cautious (auto : Bool) (s : Session) : Prop := auto = true ∨ s.Manual

variable {runs : HookRunner → Prop} {s s' : Session} {mine : TransactionId → Prop}

theorem held_elsewhere {t : Transaction} {store : Store}
    (h : Work.Regular runs ⟨s.store, t⟩ ∧ Work.Tidy runs ⟨s.store, t⟩)
    (hstore : s.store.Grows mine store) (hother : ¬ mine t.id) :
    Work.Regular runs ⟨store, t⟩ ∧ Work.Tidy runs ⟨store, t⟩ :=
  ⟨h.1.elsewhere rfl rfl h.1.callbacks hstore hother, h.2.rests ⟨rfl, rfl, rfl⟩ hstore.log⟩

theorem regular_start (config : Config) {backend : Backend} (hlog : backend.memory.log = []) :
    (start (Store.new config backend)).Regular runs := by
  refine ⟨fun entry hentry => ?_, fun hf => by simp [start] at hf, fun hf => by simp [start] at hf⟩
  change entry ∈ backend.memory.log at hentry
  rw [hlog] at hentry
  cases hentry

/-- A change of the feed is no event in the log. -/
theorem Regular.ofSame (hs : s.Regular runs)
    (hlog : s'.store.backend.memory.log = s.store.backend.memory.log)
    (hbegun : s'.store.begun = s.store.begun) (hheld : s'.transactions = s.transactions) :
    s'.Regular runs := by
  refine ⟨?_, fun {key t} hf => ?_, by rw [hheld]; exact hs.distinct⟩
  · rw [Store.Known, hlog, hbegun]
    exact hs.known
  · rw [hheld] at hf
    obtain ⟨⟨hknown, hbegan, hfinished, hcallbacks⟩, htidy⟩ := hs.held hf
    refine ⟨⟨?_, ?_, ?_, hcallbacks⟩, htidy.rests ⟨rfl, rfl, rfl⟩ (hlog ▸ List.prefix_refl _)⟩
    · rw [Store.Known, hlog, hbegun]
      exact hknown
    · rw [hbegun]
      exact hbegan
    · rw [hlog]
      exact hfinished

/-- What becomes of a session when the transaction under a key has gone on. -/
theorem Regular.holds (hs : s.Regular runs) {w : Work} (hw : w.Regular runs) (htidy : w.Tidy runs)
    (hstore : s.store.Grows mine w.store) (hmine : ∀ id, mine id → id = w.txn.id) (key : String)
    (hkey : ∀ {other t}, s.transactions.find? other = some t → t.id = w.txn.id → other = key) :
    Regular runs { s with store := w.store, transactions := s.transactions.insert key w.txn } := by
  refine ⟨hw.log, fun {other t} hf => ?_, fun {a b t t'} ha hb hid => ?_⟩
  · simp only [OrderedMap.find?_insert] at hf
    split at hf
    · cases hf
      exact ⟨hw, htidy⟩
    · rename_i hne
      exact held_elsewhere (hs.held hf) hstore fun hid => hne (hkey hf (hmine _ hid)).symm
  · simp only [OrderedMap.find?_insert] at ha hb
    split at ha <;> split at hb
    · rename_i h h'
      exact h'.symm.trans h
    · rename_i h h'
      cases ha
      exact (hkey hb hid).trans h
    · rename_i h h'
      cases hb
      exact h'.symm.trans (hkey ha hid.symm).symm
    · exact hs.distinct ha hb hid

theorem Regular.drops (hs : s.Regular runs) {t : Transaction} (hw : Work.Regular runs ⟨s.store, t⟩)
    (hother : ∀ {key t'}, s.transactions.find? key = some t' → t'.id ≠ t.id) :
    (s.dropTransaction t).Regular runs :=
  ⟨hw.drop.grows.known hs.known,
    fun hf => held_elsewhere (hs.held hf) hw.drop.grows (hother hf), hs.distinct⟩

theorem not_begun (hs : s.Regular runs) {key : String} {t : Transaction}
    (h : s.transactions.find? key = some t) (name : String) :
    t.id ≠ (s.store.begin name).txn.id := by
  intro hid
  have hbegun : t.id.number ≤ s.store.begun := (hs.held h).1.begun
  rw [hid] at hbegun
  exact Nat.not_succ_le_self _ hbegun

/-- Beginning a transaction under a key, and dropping the one that was held there. -/
theorem Regular.begin (hs : s.Regular runs) (key name : String) :
    (s.begin key name).Regular runs ∧
      s.store.Passes runs (fun _ => True) (s.begin key name).store := by
  have hapart : s.store.Passes runs (fun _ => False) (s.store.begin name).store :=
    Store.begin_passes hs.known name
  have hstore : s.store.Passes runs (fun _ => True) (s.store.begin name).store :=
    hapart.mono fun _ h => h.elim
  have hbegun := hs.holds (Store.begin_regular hs.known name) (Work.tidy_of_not_finished rfl)
    hapart.grows (fun _ h => h.elim) key fun hf hid => absurd hid (not_begun hs hf name)
  rw [Session.begin]
  cases hold : s.transactions.find? key with
  | none => exact ⟨hbegun, hstore⟩
  | some old =>
    have hw : Work.Regular runs ⟨(s.store.begin name).store, old⟩ :=
      (held_elsewhere (hs.held hold) hapart.grows fun h => h).1
    refine ⟨hbegun.drops hw fun {other t'} hf hid => ?_,
      hstore.trans (hw.drop.mono fun _ _ => .inl trivial)⟩
    simp only [OrderedMap.find?_insert] at hf
    split at hf
    · cases hf
      exact not_begun hs hold name hid.symm
    · rename_i hne
      exact hne (hs.distinct hold hf hid).symm

theorem Regular.drop (hs : s.Regular runs) (key : String) :
    (s.drop key).2.Regular runs ∧ s.store.Passes runs (fun _ => True) (s.drop key).2.store := by
  rw [Session.drop]
  cases hheld : s.transactions.find? key with
  | none => exact ⟨hs, .refl _⟩
  | some t =>
    have hw := (hs.held hheld).1
    refine ⟨?_, hw.drop.mono fun _ _ => .inl trivial⟩
    have hrest : Regular runs { s with transactions := s.transactions.erase key } :=
      ⟨hs.known, fun hf => hs.held (OrderedMap.find?_erase_eq_some.1 hf).2,
        fun hf hf' => hs.distinct (OrderedMap.find?_erase_eq_some.1 hf).2
          (OrderedMap.find?_erase_eq_some.1 hf').2⟩
    refine hrest.drops hw fun hf hid => ?_
    obtain ⟨hne, hf⟩ := OrderedMap.find?_erase_eq_some.1 hf
    exact hne (hs.distinct hheld hf hid).symm

theorem log_of_listens (run : HookRunner) (s : Session) {m : Move} (hlisten : m.Listens) :
    (s.move run m).store.backend.memory.log = s.store.backend.memory.log ∧
      (s.move run m).store.begun = s.store.begun ∧
      (s.move run m).transactions = s.transactions := by
  cases m with
  | subscribe _ | unsubscribe _ | drain _ => exact ⟨rfl, rfl, rfl⟩
  | _ => exact hlisten.elim

section Moves

variable {hooks : Hooks} {auto : Bool} {level : Nat}
  (h : hooks.Ask (Permitted auto (hooks.runners auto level)))
include h

theorem Cautious.move (hs : s.Cautious auto) {m : Move}
    (hm : m.Asks (Permitted auto (hooks.runners auto level))) :
    (s.move (hooks.runner level) m).Cautious auto := by
  cases hauto : auto with
  | true => exact .inl rfl
  | false =>
    have manual : ∀ op, Permitted auto (hooks.runners auto level) op → op.Manual :=
      fun op hop => hop.1.resolve_left (by rw [hauto]; simp)
    have hmanual := hs.resolve_left (by rw [hauto]; simp)
    refine .inr (hmanual.move (fun hook e => (h hook e).mono manual) ?_)
    cases m with
    | perform key op => exact manual op hm
    | within name p => exact Program.Asks.mono hm manual
    | _ => trivial

theorem Regular.perform (hs : s.Regular (hooks.runners auto level)) (hcautious : s.Cautious auto)
    (key : String) {op : Operation} (hop : Permitted auto (hooks.runners auto level) op) :
    (s.perform (hooks.runner level) key op).Regular (hooks.runners auto level) ∧
      s.store.Passes (hooks.runners auto level) (fun _ => True)
        (s.perform (hooks.runner level) key op).store := by
  rw [Session.perform]
  cases hheld : s.transactions.find? key with
  | none => exact ⟨hs, .refl _⟩
  | some t =>
    obtain ⟨hregular, htidy⟩ := hs.held hheld
    have hw : Work.Cautious auto ⟨s.store, t⟩ := hcautious.imp_right fun hm => hm.work hheld
    have hgone := hooks.continues_perform h (Nat.le_refl _) hop hw hregular
    refine ⟨hs.holds hgone.regular (hooks.tidy_perform h hop hw hregular htidy) hgone.store.grows
      (fun id hid => hid.trans hgone.id.symm) key fun hf hid => ?_,
      hgone.store.mono fun _ _ => .inl trivial⟩
    exact hs.distinct hheld hf (hid.trans hgone.id)

theorem Regular.within (hs : s.Regular (hooks.runners auto level)) (hcautious : s.Cautious auto)
    (name : String) {p : Program (Result Unit)}
    (hp : p.Asks (Permitted auto (hooks.runners auto level))) :
    (s.within (hooks.runner level) name p).2.Regular (hooks.runners auto level) ∧
      s.store.Passes (hooks.runners auto level) (fun _ => True)
        (s.within (hooks.runner level) name p).2.store := by
  have hapart : s.store.Passes (hooks.runners auto level) (fun _ => False)
      (s.within (hooks.runner level) name p).2.store :=
    Store.within_passes h hs.known (hcautious.imp_right fun hm => hm.config) name hp
  exact ⟨⟨hapart.grows.known hs.known,
    fun hf => held_elsewhere (hs.held hf) hapart.grows fun h => h, hs.distinct⟩,
    hapart.mono fun _ h => h.elim⟩

theorem Regular.move_of_not_listens (hs : s.Regular (hooks.runners auto level))
    (hcautious : s.Cautious auto) {m : Move}
    (hm : m.Asks (Permitted auto (hooks.runners auto level))) (hlisten : ¬ m.Listens) :
    (s.move (hooks.runner level) m).Regular (hooks.runners auto level) ∧
      s.store.Passes (hooks.runners auto level) (fun _ => True)
        (s.move (hooks.runner level) m).store := by
  cases m with
  | begin key name => exact hs.begin key name
  | drop key => exact hs.drop key
  | perform key op => exact hs.perform h hcautious key hm
  | within name p => exact hs.within h hcautious name hm
  | subscribe _ | unsubscribe _ | drain _ => exact absurd trivial hlisten

theorem Regular.move (hs : s.Regular (hooks.runners auto level)) (hcautious : s.Cautious auto)
    {m : Move} (hm : m.Asks (Permitted auto (hooks.runners auto level))) :
    (s.move (hooks.runner level) m).Regular (hooks.runners auto level) ∧
      s.store.backend.memory.log <+: (s.move (hooks.runner level) m).store.backend.memory.log ∧
      (Orderly s.store.backend.memory.log →
        Orderly (s.move (hooks.runner level) m).store.backend.memory.log ∨
          s.store.Overran (hooks.runners auto level) (s.move (hooks.runner level) m).store) := by
  by_cases hlisten : m.Listens
  · obtain ⟨hlog, hbegun, hheld⟩ := log_of_listens (hooks.runner level) s hlisten
    refine ⟨hs.ofSame hlog hbegun hheld, hlog ▸ List.prefix_refl _, fun horderly => .inl ?_⟩
    rw [hlog]
    exact horderly
  · obtain ⟨hregular, hstore⟩ := hs.move_of_not_listens h hcautious hm hlisten
    exact ⟨hregular, hstore.grows.log, hstore.order⟩

end Moves

/-! ## Runs -/

/-- Whatever moves, an ended transaction that is still held keeps its state and its working set. -/
theorem rests_move (hooks : Hooks) (level : Nat) (hs : s.Regular runs) {key : String}
    {t t' : Transaction} (hheld : s.transactions.find? key = some t)
    (hended : t.state.isFinished = true) {m : Move}
    (hstill : (s.move (hooks.runner level) m).transactions.find? key = some t')
    (hid : t'.id = t.id) :
    Work.Rests ⟨s.store, t⟩ ⟨(s.move (hooks.runner level) m).store, t'⟩ := by
  rcases find?_move hstill with hsame | ⟨name, rfl⟩ | ⟨op, u, -, hu, rfl⟩
  · rw [hheld] at hsame
    cases hsame
    exact ⟨rfl, rfl, rfl⟩
  · exact absurd hid.symm (not_begun hs hheld name)
  · rw [hheld] at hu
    cases hu
    obtain ⟨hstate, hmodified, hdeleted⟩ := hooks.rests_perform level op (w := ⟨s.store, t⟩) hended
    exact ⟨hstate, hmodified, hdeleted⟩

/-- In every session that a run leads to the order of events has been kept, unless a write at once
overran an end. -/
theorem Reach.regular {hooks : Hooks} {auto : Bool} {level : Nat}
    (h : hooks.Ask (Permitted auto (hooks.runners auto level))) {config : Config}
    (hconfig : auto = true ∨ config.autoCommit = false) {backend : Backend}
    (hlog : backend.memory.log = [])
    (hreach : Reach (hooks.runner level)
      (fun _ m => m.Asks (Permitted auto (hooks.runners auto level)))
      (start (Store.new config backend)) s) :
    s.Regular (hooks.runners auto level) ∧ s.Cautious auto ∧
      (Orderly s.store.backend.memory.log ∨
        (Store.new config backend).Overran (hooks.runners auto level) s.store) := by
  have hempty : (Store.new config backend).backend.memory.log = [] := hlog
  induction hreach with
  | refl =>
    refine ⟨regular_start config hlog,
      hconfig.imp_right fun hoff => manual_start hoff backend, .inl ?_⟩
    change Orderly (Store.new config backend).backend.memory.log
    rw [hempty]
    exact .nil
  | move _ hm ih =>
    obtain ⟨hregular, hcautious, horder⟩ := ih
    obtain ⟨hregular', hlog', horder'⟩ := hregular.move h hcautious hm
    refine ⟨hregular', hcautious.move h hm, ?_⟩
    -- once a write has overrun an end it stays in the log, which later moves only extend
    rcases horder with horderly | hover
    · exact (horder' horderly).imp_right fun hover =>
        hover.extend (by rw [hempty]; exact List.nil_prefix) (List.prefix_refl _)
    · exact .inr (hover.extend (List.prefix_refl _) hlog')

/-- Nothing about a transaction follows its end, unless a write at once overran it: the repair
before the write ended the transaction, and yet succeeded. Whatever is published was applied before.
An ended transaction keeps its state and its working set, and that is empty unless a write at once
has left something: the repair before the write ended the transaction, and then the repair itself or
the backend failed. -/
theorem ended_transactions_stay_ended (hooks : Hooks) (level : Nat) (auto : Bool)
    (hhooks : hooks.Ask (Permitted auto (hooks.runners auto level))) (config : Config)
    (hconfig : auto = true ∨ config.autoCommit = false) (backend : Backend)
    (hlog : backend.memory.log = []) (s : Session)
    (hreach : Reach (hooks.runner level)
      (fun _ m => m.Asks (Permitted auto (hooks.runners auto level)))
      (start (Store.new config backend)) s) :
    (Orderly s.store.backend.memory.log ↔
      ¬ (Store.new config backend).Overran (hooks.runners auto level) s.store) ∧
    (∀ m : Move, m.Asks (Permitted auto (hooks.runners auto level)) → ¬ m.Listens →
      s.store.Grows (fun _ => True) (s.move (hooks.runner level) m).store) ∧
    (∀ key t, s.transactions.find? key = some t →
      (t.state.isFinished = true ↔ .finished t.id ∈ s.store.backend.memory.log) ∧
      (t.state.isFinished = true →
        (t.isEmpty = true ↔ ¬ Work.LeftOver (hooks.runners auto level) ⟨s.store, t⟩) ∧
        ∀ m t', (s.move (hooks.runner level) m).transactions.find? key = some t' → t'.id = t.id →
          Work.Rests ⟨s.store, t⟩ ⟨(s.move (hooks.runner level) m).store, t'⟩)) ∧
    ∀ name (p : Program (Result Unit)), p.Asks (Permitted auto (hooks.runners auto level)) →
      let w := (p.run (hooks.runner level) (s.store.begin name)).2
      (w.txn.state.isFinished = true ↔ .finished w.txn.id ∈ w.store.backend.memory.log) ∧
      (w.txn.state.isFinished = true →
        (w.txn.isEmpty = true ↔ ¬ w.LeftOver (hooks.runners auto level)) ∧
        ∀ op : Operation, w.Rests (op.perform (hooks.runner level) w).2) := by
  obtain ⟨hregular, hcautious, horder⟩ := hreach.regular hhooks hconfig hlog
  refine ⟨⟨fun horderly hover => Store.not_orderly_of_overran hover horderly,
    horder.resolve_right⟩, fun m hm hlisten => ?_, fun key t hheld => ?_, fun name p hp => ?_⟩
  · exact (hregular.move_of_not_listens hhooks hcautious hm hlisten).2.grows
  · obtain ⟨hwork, htidy⟩ := hregular.held hheld
    exact ⟨hwork.finished, fun hended => ⟨htidy.isEmpty_iff hended,
      fun m t' hstill hid => rests_move hooks level hregular hheld hended hstill hid⟩⟩
  · intro w
    have hcautiously : (s.store.begin name).Cautious auto :=
      hcautious.imp_right fun hm => hm.begins name
    have hbegun : (s.store.begin name).Regular (hooks.runners auto level) :=
      Store.begin_regular hregular.known name
    have hran := (hooks.lasts_run hhooks (Nat.le_refl _) hp ⟨hcautiously, hbegun⟩).2
    have htidy : w.Tidy (hooks.runners auto level) :=
      hooks.tidy_run hhooks hp hcautiously hbegun (Work.tidy_of_not_finished rfl)
    exact ⟨hran.regular.finished, fun hended =>
      ⟨htidy.isEmpty_iff hended, fun op => hooks.rests_perform level op hended⟩⟩

/-- A probe that rolls its transaction back whenever it is checked, and takes no notice of whether
that succeeds. -/
def quitting : Scripts
  | "probe", .check => [⟨none, none, true, .rollback⟩]
  | _, _ => []

/-- A client puts the probe where changes are written at once. -/
def quits : List Move :=
  [.begin "t" "t", .perform "t" (.setAutoCommit true),
    .perform "t" (.persist ⟨"probe", .probe .empty⟩)]

theorem permitted_of_plain {auto : Bool} (op : Operation) (h : op.Plain) : Permitted auto runs op :=
  ⟨.inr (manual_of_plain op h), fun c hc => by rw [hc] at h; exact h.elim⟩

theorem quitting_probe_overruns :
    let hooks := Script.hooks .builtIn quitting
    let s := (start (Store.new .standard (.plain []))).moves (hooks.runner 2) quits
    hooks.Ask (Permitted true (hooks.runners true 2)) ∧
      (Backend.plain []).memory.log = [] ∧
      (Store.new .standard (.plain [])).Overran (hooks.runners true 2) s.store := by
  intro hooks s
  have hask : hooks.Ask (Permitted true (hooks.runners true 2)) :=
    fun hook e => (Script.hooks_ask .builtIn quitting hook e).mono permitted_of_plain
  refine ⟨hask, rfl, ?_⟩
  have hreach : Reach (hooks.runner 2) (fun _ m => m.Asks (Permitted true (hooks.runners true 2)))
      (start (Store.new .standard (.plain []))) s := by
    refine reach_moves ⟨trivial, ⟨.inl rfl, fun c hc => by cases hc⟩, ?_, trivial⟩
    exact permitted_of_plain _ trivial
  have hbroken : ¬ Orderly s.store.backend.memory.log := by decide +kernel
  have hiff := (ended_transactions_stay_ended hooks 2 true hask .standard (.inl rfl) (.plain []) rfl
    s hreach).1
  exact Classical.byContradiction fun hnot => hbroken (hiff.2 hnot)

/-- The transaction that the probe has rolled back is written, although it is not active. -/
theorem batch_after_rollback :
    let s := (start (Store.new .standard (.plain []))).moves
      ((Script.hooks .builtIn quitting).runner 2) quits
    (s.transactions.find? "t").any (fun t => t.state = .rolledBack) = true ∧
      s.store.backend.table.contains "probe" = true ∧
      ¬ Orderly s.store.backend.memory.log := by
  decide +kernel

end Session

end EntityStore
