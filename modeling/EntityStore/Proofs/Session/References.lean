import EntityStore.Proofs.Repair.Dangling

/-!
# References over a run

However the moves of clients interleave, a write of a transaction that repairs references brings no
dangling one, and a store that begins with none never has any as long as every write is one of
those.
-/

namespace EntityStore

open Repair

/-- Moves in a transaction that repairs references when it writes and drops no modification. -/
def Move.Repairs (s : Session) : Move → Prop
  | .perform key _ => ∀ t, s.transactions.find? key = some t →
      t.ensureIntegrity = true ∧ t.ignoreModifications = false
  | .within _ p => s.store.config.ensureIntegrity = true ∧
      p.Asks fun op => op.Tame ∧ ¬ op.ChangesSettings
  | _ => True

namespace Session

/-- Whether a move has a batch applied. -/
def Writes (run : HookRunner) (s : Session) (m : Move) : Prop :=
  (s.move run m).store.backend.memory.applied ≠ s.store.backend.memory.applied

/-- All entities look after themselves, those of transactions included, and no transaction puts what
it takes away. -/
structure Tidy (s : Session) : Prop where
  committed : ∀ {id e}, s.store.backend.table.find? id = some e → tendsItself e = true
  held : ∀ {key t}, s.transactions.find? key = some t →
    Work.Sound ⟨s.store, t⟩ ∧ t.callbacks = []

variable {run : HookRunner} {s : Session} {m : Move}

theorem tidy_start (config : Config) {backend : Backend}
    (h : ∀ {id e}, backend.table.find? id = some e → tendsItself e = true) :
    (start (Store.new config backend)).Tidy :=
  ⟨h, fun hf => by simp [start] at hf⟩

theorem Tidy.ofSame {s' : Session} (hs : s.Tidy)
    (htable : s'.store.backend.table = s.store.backend.table)
    (hheld : ∀ key, s'.transactions.find? key = s.transactions.find? key) : s'.Tidy := by
  refine ⟨fun h => hs.committed (htable ▸ h), fun {key t} h => ?_⟩
  rw [hheld] at h
  exact ⟨(hs.held h).1.of_eq rfl rfl htable, (hs.held h).2⟩

theorem Tidy.advance (hs : s.Tidy) {t : Transaction} {w : Work} (h : Work.Advances ⟨s.store, t⟩ w)
    (key : String) :
    Tidy { s with store := w.store, transactions := s.transactions.insert key w.txn } := by
  refine ⟨h.sound.committed, fun {other t'} hf => ?_⟩
  simp only [OrderedMap.find?_insert] at hf
  split at hf
  · cases hf
    exact ⟨h.sound, h.callbacks⟩
  · obtain ⟨hsound, hc⟩ := hs.held hf
    exact ⟨⟨hsound.pending, h.sound.committed, hsound.apart⟩, hc⟩

theorem sound_new (hs : s.Tidy) (id : TransactionId) (name : String) :
    Work.Sound ⟨s.store, Transaction.new id name s.store.config⟩ :=
  ⟨fun h => by simp [Transaction.new] at h, hs.committed, fun _ => rfl⟩

theorem proceeds_begin (hs : s.Tidy) (name : String) :
    Work.Proceeds ⟨s.store, (s.store.begin name).txn⟩ (s.store.begin name) :=
  .ofSame ((sound_new hs _ name).of_eq rfl rfl rfl) rfl ⟨rfl, rfl⟩
    (Memory.applied_note_started _ _) rfl

theorem advances_within (hrun : Honours run) (hs : s.Tidy) (name : String)
    {p : Program (Result Unit)} (hp : p.Asks Operation.Tame) :
    ∃ w, Work.Advances ⟨s.store, (s.store.begin name).txn⟩ w ∧
      (s.within run name p).2.store = w.store := by
  have hbegin := proceeds_begin hs name
  have hafter := hbegin.toAdvances.trans (Work.advances_run hrun hp hbegin.sound hbegin.callbacks)
  rcases s.store.within_store run name (p.run run) with h | h
  · have hend := Work.proceeds_rollback hafter.sound hafter.callbacks
    exact ⟨_, (hafter.trans hend.toAdvances).trans
      (Work.proceeds_drop hend.sound hend.callbacks).toAdvances, h⟩
  · have hend := Work.proceeds_commit hrun hafter.sound hafter.callbacks
    exact ⟨_, (hafter.trans hend.toAdvances).trans
      (Work.proceeds_drop hend.sound hend.callbacks).toAdvances, h⟩

theorem proceeds_within (hrun : Honours run) (hs : s.Tidy) (name : String)
    {p : Program (Result Unit)} (hp : p.Asks fun op => op.Tame ∧ ¬ op.ChangesSettings) :
    ∃ w, Work.Proceeds ⟨s.store, (s.store.begin name).txn⟩ w ∧
      (s.within run name p).2.store = w.store := by
  have hbegin := proceeds_begin hs name
  have hafter := hbegin.trans (Work.proceeds_run hrun hp hbegin.sound hbegin.callbacks)
  rcases s.store.within_store run name (p.run run) with h | h
  · have hend := Work.proceeds_rollback hafter.sound hafter.callbacks
    exact ⟨_, (hafter.trans hend).trans (Work.proceeds_drop hend.sound hend.callbacks), h⟩
  · have hend := Work.proceeds_commit hrun hafter.sound hafter.callbacks
    exact ⟨_, (hafter.trans hend).trans (Work.proceeds_drop hend.sound hend.callbacks), h⟩

/-! ## Moves -/

theorem drop_same (w : Work) :
    w.drop.backend.memory.applied = w.store.backend.memory.applied ∧
      w.drop.backend.table = w.store.backend.table := by
  rw [Work.drop]
  split
  · exact ⟨rfl, rfl⟩
  · exact ⟨Memory.applied_note_finished _ _, rfl⟩

theorem Tidy.begin (hs : s.Tidy) (key name : String) : (s.begin key name).Tidy := by
  have hbegun := hs.advance (proceeds_begin hs name).toAdvances key
  rw [Session.begin]
  cases s.transactions.find? key with
  | none => exact hbegun
  | some old => exact hbegun.ofSame (drop_same _).2 fun _ => rfl

theorem begin_same (s : Session) (key name : String) :
    (s.begin key name).store.backend.memory.applied = s.store.backend.memory.applied ∧
      (s.begin key name).store.backend.table = s.store.backend.table := by
  have hbegun :
      (s.store.begin name).store.backend.memory.applied = s.store.backend.memory.applied :=
    Memory.applied_note_started _ _
  rw [Session.begin]
  cases s.transactions.find? key with
  | none => exact ⟨hbegun, rfl⟩
  | some old => exact ⟨(drop_same _).1.trans hbegun, (drop_same _).2⟩

theorem Tidy.drop (hs : s.Tidy) (key : String) : (s.drop key).2.Tidy := by
  rw [Session.drop]
  cases s.transactions.find? key with
  | none => exact hs
  | some t =>
    refine ⟨fun h => hs.committed ((drop_same _).2 ▸ h), fun {other t'} hf => ?_⟩
    obtain ⟨hsound, hc⟩ := hs.held (OrderedMap.find?_erase_eq_some.1 hf).2
    exact ⟨hsound.of_eq rfl rfl (drop_same _).2, hc⟩

theorem session_drop_same (s : Session) (key : String) :
    (s.drop key).2.store.backend.memory.applied = s.store.backend.memory.applied ∧
      (s.drop key).2.store.backend.table = s.store.backend.table := by
  rw [Session.drop]
  cases s.transactions.find? key with
  | none => exact ⟨rfl, rfl⟩
  | some t => exact drop_same _

/-- Moves of clients whose entities look after themselves bring in no others. -/
theorem Tidy.move (hrun : Honours run) (hs : s.Tidy) (hm : m.Asks Operation.Tame) :
    (s.move run m).Tidy := by
  cases m with
  | begin key name => exact hs.begin key name
  | drop key => exact hs.drop key
  | perform key op =>
    simp only [Session.move, perform]
    cases hheld : s.transactions.find? key with
    | none => exact hs
    | some t =>
      obtain ⟨hsound, hc⟩ := hs.held hheld
      exact hs.advance (Work.advances_perform hrun hm hsound hc) key
  | within name p =>
    obtain ⟨w, hw, hstore⟩ := advances_within hrun hs name hm
    refine ⟨fun h => hw.sound.committed (hstore ▸ h), fun {key t} h => ?_⟩
    obtain ⟨hsound, hc⟩ := hs.held h
    refine ⟨⟨hsound.pending, fun h => hw.sound.committed (hstore ▸ h), hsound.apart⟩, hc⟩
  | subscribe listener => exact hs.ofSame rfl fun _ => rfl
  | unsubscribe listener => exact hs.ofSame rfl fun _ => rfl
  | drain listener => exact hs.ofSame rfl fun _ => rfl

/-- The committed entities change only by batches. -/
theorem table_of_not_writes (hrun : Honours run) (hs : s.Tidy) (hm : m.Asks Operation.Tame)
    (h : ¬ s.Writes run m) :
    (s.move run m).store.backend.table = s.store.backend.table := by
  have unchanged : ∀ {w w' : Work}, w.Advances w' →
      w'.store.backend.memory.applied = w.store.backend.memory.applied →
      w'.store.backend.table = w.store.backend.table := by
    intro w w' hw happlied
    obtain ⟨written, hwritten, htable⟩ := hw.writes
    rw [happlied, List.self_eq_append_right] at hwritten
    exact htable hwritten
  simp only [Writes, ne_eq, Decidable.not_not] at h
  cases m with
  | begin key name => exact (begin_same s key name).2
  | drop key => exact (session_drop_same s key).2
  | perform key op =>
    simp only [Session.move, perform] at h ⊢
    cases hheld : s.transactions.find? key with
    | none => rfl
    | some t =>
      obtain ⟨hsound, hc⟩ := hs.held hheld
      simp only [hheld] at h
      exact unchanged (Work.advances_perform hrun hm hsound hc) h
  | within name p =>
    obtain ⟨w, hw, hstore⟩ := advances_within hrun hs name hm
    simp only [Session.move, hstore] at h ⊢
    exact unchanged hw h
  | subscribe listener => rfl
  | unsubscribe listener => rfl
  | drain listener => rfl

/-- A move in a transaction that repairs references brings no dangling one. -/
theorem keepsReferences_move (hrun : Honours run) (hs : s.Tidy) (hm : m.Asks Operation.Tame)
    (hr : m.Repairs s) :
    s.store.KeepsReferences (s.move run m).store := by
  cases m with
  | begin key name => exact .ofSame (begin_same s key name).1 (begin_same s key name).2
  | drop key => exact .ofSame (session_drop_same s key).1 (session_drop_same s key).2
  | perform key op =>
    simp only [Session.move, perform]
    cases hheld : s.transactions.find? key with
    | none => exact .ofSame rfl rfl
    | some t =>
      obtain ⟨hsound, hc⟩ := hs.held hheld
      obtain ⟨hensure, hheed⟩ := hr t hheld
      by_cases hset : op.ChangesSettings
      · cases op with
        | setIgnoreModifications value => exact .ofSame rfl rfl
        | setEnsureIntegrity value => exact .ofSame rfl rfl
        | _ => exact hset.elim
      · exact (Work.proceeds_perform hrun hm hset hsound hc).keeps hensure hheed
  | within name p =>
    obtain ⟨w, hw, hstore⟩ := proceeds_within hrun hs name hr.2
    simp only [Session.move, hstore]
    exact hw.keeps hr.1 rfl
  | subscribe listener => exact .ofSame rfl rfl
  | unsubscribe listener => exact .ofSame rfl rfl
  | drain listener => exact .ofSame rfl rfl

/-! ## Runs -/

/-- However transactions interleave, a write of one that repairs references leaves no reference
dangling but such as dangled before, and of entities that it has not written. A store that begins
without any dangling reference never has one, as long as every write is by such a transaction. -/
theorem references_never_dangle (registry : Registry) (scripts : Scripts) (level : Nat)
    (config : Config) (backend : Backend)
    (hkinds : ∀ id e, backend.table.find? id = some e → tendsItself e = true) :
    let run := (Script.hooks registry scripts).runner (level + 1)
    (∀ s m, Reach run (fun _ m => m.Asks Operation.Tame) (start (Store.new config backend)) s →
      m.Asks Operation.Tame → m.Repairs s → s.store.KeepsReferences (s.move run m).store) ∧
    ((∀ id ref, ¬ backend.table.Dangles id ref) → ∀ s,
      Reach run (fun s m => m.Asks Operation.Tame ∧ (s.Writes run m → m.Repairs s))
        (start (Store.new config backend)) s →
      ∀ id ref, ¬ s.store.backend.table.Dangles id ref) := by
  intro run
  have hrun : Honours run := honours_script registry scripts level
  have hstart : (start (Store.new config backend)).Tidy := tidy_start config fun h => hkinds _ _ h
  constructor
  · intro s m hreach hm hr
    have hs : s.Tidy := hreach.invariant hstart fun _ _ hu htame => hu.move hrun htame
    exact keepsReferences_move hrun hs hm hr
  · intro hnone s hreach
    refine (hreach.invariant
      (I := fun u => u.Tidy ∧ ∀ id ref, ¬ u.store.backend.table.Dangles id ref)
      ⟨hstart, hnone⟩ fun u m hu hm => ⟨hu.1.move hrun hm.1, fun id ref hd => ?_⟩).2
    by_cases hw : u.Writes run m
    · obtain ⟨written, -, hkeeps⟩ := keepsReferences_move hrun hu.1 hm.1 (hm.2 hw)
      exact hu.2 id ref (hkeeps id ref hd).1
    · rw [table_of_not_writes hrun hu.1 hm.1 hw] at hd
      exact hu.2 id ref hd

theorem repairs_of_all {key : String} {op : Operation}
    (h : (s.transactions.find? key).all (fun t => t.ensureIntegrity && !t.ignoreModifications) =
      true) : (Move.perform key op).Repairs s := by
  intro t ht
  rw [ht] at h
  simpa using h

/-- A store with an order of a customer. -/
def shop : Store :=
  .new .standard (.plain [⟨"ada", .customer "Ada"⟩, ⟨"first", .order (some "ada") "1"⟩])

/-- One client adds a line to the order, another deletes the order and commits, then the first
commits too. -/
def lateLine : List Move :=
  [.begin "a" "adds", .begin "d" "deletes",
    .perform "a" (.persist ⟨"tea", .orderLine "first" "Tea"⟩),
    .perform "d" (.delete "first"), .perform "d" .commit, .perform "a" .commit]

theorem late_line_of_deleted_order :
    shop.backend.table.toList.all tendsItself = true ∧
      shop.backend.table.toList.all (fun e => e.references.all shop.backend.table.contains) = true ∧
      ¬ ((start shop).moves ((Script.hooks .builtIn fun _ _ => []).runner 1) lateLine
        ).store.backend.table.Dangles "tea" "first" := by
  have hkinds : shop.backend.table.toList.all tendsItself = true := by decide +kernel
  have hwhole : shop.backend.table.toList.all
      (fun e => e.references.all shop.backend.table.contains) = true := by decide +kernel
  refine ⟨hkinds, hwhole, ?_⟩
  have hkept := references_never_dangle .builtIn (fun _ _ => []) 0 .standard shop.backend
    (fun id e h => List.all_eq_true.1 hkinds e
      (Index.mem_toList_iff.2 ((Index.id_of_find? h).symm ▸ h)))
  refine hkept.2 (fun id ref => Index.not_dangles_of_all hwhole) _ (reach_moves ?_) "tea" "first"
  refine ⟨⟨trivial, fun _ => trivial⟩, ⟨trivial, fun _ => trivial⟩, ⟨rfl, fun _ => ?_⟩,
    ⟨trivial, fun _ => ?_⟩, ⟨trivial, fun _ => ?_⟩, ⟨trivial, fun _ => ?_⟩, trivial⟩
  all_goals exact repairs_of_all (by decide +kernel)

end Session

end EntityStore
