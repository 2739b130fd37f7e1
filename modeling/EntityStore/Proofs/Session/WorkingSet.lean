import EntityStore.Proofs.Session.Courses
import EntityStore.Proofs.Transaction.Refusal
import EntityStore.Proofs.Transaction.WorkingSet

/-!
# Working sets throughout a session

Whatever clients, hooks and callbacks do, and however often they fail, the working set of every
transaction is in order whenever none of its operations is under way, and every batch that the
backend was ever handed puts no id twice and none that it takes away.

Main statement: `Session.working_sets_stay_in_order`.
-/

namespace EntityStore

namespace Store

/-- The backend was never handed a batch that puts an id twice, or one that it takes away. -/
def Lawful (s : Store) : Prop :=
  ∀ b, .applied b ∈ s.backend.memory.log ∨ .rejected b ∈ s.backend.memory.log → b.Lawful

variable {s s' : Store}

theorem Lawful.of_offers (h : s.Lawful)
    (hoffers : ∀ entry ∈ s'.backend.memory.offers, entry ∈ s.backend.memory.offers ∨
      ∃ b : Batch, b.Lawful ∧ (entry = .applied b ∨ entry = .rejected b)) : s'.Lawful := by
  have hnew (entry : LogEntry) (b : Batch) (heq : entry = .applied b ∨ entry = .rejected b)
      (hmem : entry ∈ s'.backend.memory.log) : b.Lawful := by
    have hoffer : entry.isOffer = true := by rcases heq with rfl | rfl <;> rfl
    rcases hoffers entry (List.mem_filter.2 ⟨hmem, hoffer⟩) with hold | ⟨b', hb', heq'⟩
    · have hlog := (List.mem_filter.1 hold).1
      rcases heq with rfl | rfl
      · exact h b (.inl hlog)
      · exact h b (.inr hlog)
    · rcases heq with rfl | rfl <;> rcases heq' with heq' | heq' <;> cases heq' <;> exact hb'
  intro b hb
  rcases hb with hb | hb
  · exact hnew _ b (.inl rfl) hb
  · exact hnew _ b (.inr rfl) hb

theorem Lawful.stirs (h : s.Lawful) (hstirs : s.Stirs s') : s'.Lawful :=
  h.of_offers fun _ hentry => .inl (hstirs.offers ▸ hentry)

/-- What the backend says of one more batch. -/
theorem Lawful.update (h : s.Lawful) {batch : Batch} (hbatch : batch.Lawful)
    {result : Result Unit} {b : Backend} (hupdate : s.backend.update batch = (result, b)) :
    (s.onBackend fun _ => b).Lawful := by
  refine h.of_offers fun entry hentry => ?_
  cases result with
  | ok _ =>
    rw [onBackend, Backend.update_ok hupdate, Memory.apply, Memory.offers_note] at hentry
    rcases List.mem_append.1 hentry with hold | hnew
    · exact .inl hold
    · exact .inr ⟨batch, hbatch, .inl (List.mem_singleton.1 hnew)⟩
  | error err =>
    rw [onBackend, Backend.update_error hupdate, Memory.offers_note] at hentry
    rcases List.mem_append.1 hentry with hold | hnew
    · exact .inl hold
    · exact .inr ⟨batch, hbatch, .inr (List.mem_singleton.1 hnew)⟩

theorem standing_autoCommit : Standing fun s => s.config.autoCommit = false where
  stirs h hstirs := hstirs.config ▸ h
  update h _ := h
  publish _ h := h
  countBatch _ _ h := h
  begins _ h := h
  listens h _ := h

end Store

theorem lawful_narrates {may : Transaction → Operation → Prop}
    (hregisters : ∀ {t c}, may t (.afterCommit c) → c.Keeps fun (_ : Unit) => Store.Lawful) :
    Narrates may (fun _ => True) (fun (_ : Unit) => Store.Lawful)
      (fun out (_ : Unit) t => t.Consistent out) fun _ => False where
  txn := Transaction.consistent_maintained _
  grows hw _ := hw
  registers := hregisters
  stirs h hstirs := h.stirs hstirs
  rejected _ h hw hupdate := h.update hw.batch hupdate
  applied _ h hw hupdate := ⟨(), h.update hw.batch hupdate, fun _ _ _ h => ⟨(), le_refl _, h⟩⟩
  begins name h := by
    refine ⟨(), le_refl _, h.of_offers fun entry hentry => .inl ?_, .of_empty rfl rfl⟩
    rwa [Store.begin, Store.count, Store.onBackend, Backend.noteStarted, Backend.onMemory,
      Memory.offers_note] at hentry
  listens h _ := h

/-! ## Where auto-commit stays off -/

section LeavesOff

variable (hooks : Hooks) (level : Nat) (number : TransactionId)

/-- Nobody turns auto-commit on in the transaction with a number while a program runs: the program
does not, and nothing would come otherwise if the hooks left it off there. -/
def Program.LeavesOff {α : Type} (p : Program α) (w : Work) : Prop :=
  p.run (hooks.runner level) w = p.run ((hooks.refusing number).runner level) w ∧
    p.Obeys ((hooks.refusing number).runner level)
      (fun w op => w.txn.id = number → op ≠ .setAutoCommit true) w

/-- Nobody turns auto-commit on in the transaction with a number while a move is made. -/
def Move.LeavesOff (s : Session) (m : Move) : Prop :=
  s.move (hooks.runner level) m = s.move ((hooks.refusing number).runner level) m ∧
    m.Obeys ((hooks.refusing number).runner level)
      (fun w op => w.txn.id = number → op ≠ .setAutoCommit true) s

variable {hooks number}

theorem Move.leavesOff_begin (s : Session) (key name : String) :
    (Move.begin key name).LeavesOff hooks level number s := ⟨rfl, trivial⟩

theorem Session.perform_congr {run run' : HookRunner} {s : Session} {key : String} {op : Operation}
    (h : ∀ t, s.transactions.find? key = some t →
      op.perform run ⟨s.store, t⟩ = op.perform run' ⟨s.store, t⟩) :
    s.perform run key op = s.perform run' key op := by
  rw [Session.perform, Session.perform]
  cases ht : s.transactions.find? key with
  | none => rfl
  | some t =>
    dsimp only
    rw [h t ht]

theorem Move.leavesOff_elsewhere {s : Session} {key : String} {op : Operation}
    (h : ∀ t, s.transactions.find? key = some t → t.id ≠ number) :
    (Move.perform key op).LeavesOff hooks level number s :=
  ⟨Session.perform_congr fun t ht => Operation.perform_refusing (h t ht) op level,
    fun t ht hid => absurd hid (h t ht)⟩

theorem Move.leavesOff_recording {s : Session} {key : String} {op : Operation}
    (hop : op.RecordsChange)
    (hauto : ∀ t, s.transactions.find? key = some t → t.autoCommit = false) :
    (Move.perform key op).LeavesOff hooks level number s := by
  refine ⟨Session.perform_congr fun t ht => Operation.perform_recording hop (hauto t ht) _ _, ?_⟩
  rintro t - - rfl
  exact hop

end LeavesOff

theorem Program.Obeys.and {α : Type} {run : HookRunner} {may may' : Work → Operation → Prop}
    {p : Program α} {w : Work} (h : p.Obeys run may w) (h' : p.Obeys run may' w) :
    p.Obeys run (fun w op => may w op ∧ may' w op) w := by
  induction p generalizing w with
  | done value => trivial
  | ask op next ih => exact ⟨⟨h.1, h'.1⟩, ih _ h.2 h'.2⟩

theorem Move.Obeys.and {run : HookRunner} {may may' : Work → Operation → Prop} {s : Session}
    {m : Move} (h : m.Obeys run may s) (h' : m.Obeys run may' s) :
    m.Obeys run (fun w op => may w op ∧ may' w op) s := by
  cases m with
  | perform key op => exact fun t ht => ⟨h t ht, h' t ht⟩
  | within name p => exact ⟨h.1.and h'.1, fun hok => ⟨h.2 hok, h'.2 hok⟩⟩
  | _ => trivial

theorem recorded_narrates (number : TransactionId) :
    Narrates (fun t op => op.Registers Callback.Transacts ∧
        (t.id = number → op ≠ .setAutoCommit true)) (· ≠ .outside)
      (fun (_ : Unit) s => s.config.autoCommit = false)
      (fun stage (_ : Unit) t => t.AtStage number stage) .outside :=
  Store.standing_autoCommit.narrates (Transaction.recorded_maintained fun hop => hop.2)
    (fun hop => (hop.1 _ rfl).keeps Store.standing_autoCommit) fun _ hoff _ => .of_empty hoff rfl

theorem Hooks.Ask.heed_refusing {hooks : Hooks}
    (hhooks : hooks.Ask (Operation.Registers Callback.Transacts)) (number : TransactionId)
    (known : Transaction → Prop) :
    (hooks.refusing number).Heed (fun t op => op.Registers Callback.Transacts ∧
      (t.id = number → op ≠ .setAutoCommit true)) known := by
  intro level hook e w _
  have hasks : ((hooks hook e).refusing number).Asks (Operation.Registers Callback.Transacts) :=
    (hhooks hook e).refusing (by rintro _ ⟨⟩) (by rintro _ _ ⟨⟩)
  exact (hasks.obeys (fun _ _ hop => hop) w).and (Program.refusing_obeys _ _ w)

/-! ## Whole sessions -/

/-- The working set of a transaction, none of whose operations is under way. -/
structure Transaction.InOrder (t : Transaction) : Prop where
  /-- No id is both to be put and taken away. -/
  apart : ∀ id, t.deleted.contains id = true → t.modified.contains id = false
  /-- Each id is to be put at most once, whatever the types of the entities. -/
  once : (t.modified.toList.map (·.id)).Nodup
  /-- What was recorded belongs to what is to be put. -/
  put : ∀ id, t.deltas.contains id = true → t.modified.contains id = true

theorem Transaction.Consistent.inOrder {t : Transaction} (h : t.Consistent fun _ => False) :
    t.InOrder :=
  ⟨h.apart, h.batch.once, fun _ hid => (h.put hid).resolve_right fun hout => hout⟩

namespace Session

variable {hooks : Hooks} {level : Nat} {may : Session → Move → Prop} {store : Store} {s : Session}

/-- Working sets are in order between operations, and so is every batch that was ever handed to the
backend. In a transaction in which nobody ever turns auto-commit on, something is recorded of every
entity that is to be put. -/
theorem working_sets_stay_in_order (hhooks : hooks.Ask (Operation.Registers Callback.Transacts))
    (hmay : ∀ u m, may u m → m.Asks (Operation.Registers Callback.Transacts))
    (hstore : store.Lawful) (hcourse : (start store).Course (hooks.runner level) may s) :
    s.store.Lawful ∧
    (∀ key t, s.transactions.find? key = some t → t.InOrder) ∧
    (∀ name (α : Type) (p : Program α), p.Asks (Operation.Registers Callback.Transacts) →
      (p.run (hooks.runner level) (s.store.begin name)).2.txn.InOrder) ∧
    ∀ number, store.config.autoCommit = false →
      (∀ u m, may u m → m.LeavesOff hooks level number u) →
      (∀ key t, s.transactions.find? key = some t → t.id = number → t.Recorded) ∧
      ∀ name (α : Type) (p : Program α), p.Asks (Operation.Registers Callback.Transacts) →
        p.LeavesOff hooks level number (s.store.begin name) →
        (p.run (hooks.runner level) (s.store.begin name)).2.txn.id = number →
          (p.run (hooks.runner level) (s.store.begin name)).2.txn.Recorded := by
  have hkeeps {c : Callback} (hc : c.Transacts) : c.Keeps fun (_ : Unit) => Store.Lawful :=
    (lawful_narrates fun hop => hop _ rfl).transacts hc
  have hlawful : Narrates (fun _ op => op.Registers Callback.Transacts) _ _ _ _ :=
    lawful_narrates fun hop => hkeeps (hop _ rfl)
  have hheed := hhooks.heed (fun _ _ hop => hop) fun t => ∃ out, ∃ _ : Unit, t.Consistent out
  obtain ⟨_, -, htold⟩ := hlawful.course (g := ()) hheed ⟨hstore, fun ht => by cases ht⟩
    (hcourse.mono fun u m hm => (hmay u m hm).registers)
  refine ⟨htold.store, fun key t ht => (htold.held ht).1.inOrder, fun name α p hp => ?_,
    fun number hoff hmoves => ?_⟩
  · obtain ⟨_, -, hran⟩ := hlawful.own (g := ()) hheed htold.store
      (hp.obeys (fun _ _ hop => hop) _)
    exact hran.txn.inOrder
  · have hnarrates := recorded_narrates number
    have hheed := hhooks.heed_refusing number fun t => ∃ stage, ∃ _ : Unit, t.AtStage number stage
    -- the same course is taken if the hooks leave auto-commit off
    have hrefused := hcourse.congr fun u m hm => (hmoves u m hm).1
    obtain ⟨_, -, htold⟩ := hnarrates.course (g := ()) hheed ⟨hoff, fun ht => by cases ht⟩
      (hrefused.mono fun u m hm => (hmay u m hm).registers.and (hmoves u m hm).2)
    refine ⟨fun key t ht hid => ((htold.held ht).1 hid).recorded, fun name α p hp hleaves => ?_⟩
    obtain ⟨hsame, hobeys⟩ := hleaves
    obtain ⟨_, -, hran⟩ := hnarrates.own (g := ()) hheed htold.store
      ((hp.obeys (fun _ _ hop => hop) _).and hobeys)
    rw [hsame]
    exact fun hid => (hran.txn hid).recorded

/-- A probe that turns auto-commit on and commits whenever it is checked, and then fails. -/
def hasty : Hooks := fun hook e =>
  match hook, e.body with
  | .check, .probe _ =>
    .ask (.setAutoCommit true) fun _ => .ask .commit fun _ =>
      .done ⟨e.body, .error (.illegalState "not yet")⟩
  | _, _ => .done ⟨e.body, .ok ()⟩

/-- One client puts the probe and commits, which fails, and goes on where changes are now written at
once. Another puts an order and takes another away. -/
def commits : List Move :=
  [.begin "a" "hastes", .perform "a" (.persist ⟨"probe", .probe .empty⟩), .perform "a" .commit,
    .perform "a" (.persist ⟨"ada", .customer "Ada"⟩), .begin "m" "collects",
    .perform "m" (.persist ⟨"first", .order none "1"⟩), .perform "m" (.delete "second")]

/-- The probe is to be put although its commit has had everything forgotten. -/
theorem committing_probe_keeps_order :
    let s := (start (Store.new .standard (.plain []))).moves (hasty.runner 2) commits
    (s.transactions.find? "a").any
        (fun t => t.modified.contains "probe" && !t.deltas.contains "probe") = true ∧
      s.store.Lawful ∧ (∀ key t, s.transactions.find? key = some t → t.InOrder) ∧
      ∀ t, s.transactions.find? "m" = some t → t.Recorded := by
  intro s
  have hhooks : hasty.Ask (Operation.Registers Callback.Transacts) := by
    intro hook e
    unfold hasty
    split
    · exact ⟨by rintro _ ⟨⟩, fun _ => ⟨Operation.registers_commit _, fun _ => trivial⟩⟩
    · trivial
  have hhastes {u : Session} {op : Operation}
      (h : (u.transactions.find? "a").all (fun t => t.id ≠ ⟨2⟩) = true) :
      (Move.perform "a" op).LeavesOff hasty 2 ⟨2⟩ u :=
    Move.leavesOff_elsewhere 2 fun t ht => by simpa [ht] using h
  have hcollects {u : Session} {op : Operation} (hop : op.RecordsChange)
      (h : (u.transactions.find? "m").all (fun t => t.autoCommit = false) = true) :
      (Move.perform "m" op).LeavesOff hasty 2 ⟨2⟩ u :=
    Move.leavesOff_recording 2 hop fun t ht => by simpa [ht] using h
  have hplain {key : String} {op : Operation} (hop : op.Plain) :
      (Move.perform key op).Asks (Operation.Registers Callback.Transacts) := hop.registers _
  have hreach : Reach (hasty.runner 2) (fun u m => m.Asks (Operation.Registers Callback.Transacts) ∧
      m.LeavesOff hasty 2 ⟨2⟩ u) (start (Store.new .standard (.plain []))) s := by
    refine reach_moves ⟨⟨trivial, Move.leavesOff_begin ..⟩, ?_, ?_, ?_,
      ⟨trivial, Move.leavesOff_begin ..⟩, ?_, ?_, trivial⟩
    case refine_1 | refine_2 | refine_3 => exact ⟨hplain trivial, hhastes (by decide +kernel)⟩
    case refine_4 | refine_5 => exact ⟨hplain trivial, hcollects trivial (by decide +kernel)⟩
  obtain ⟨hlawful, horder, -, hoff⟩ := working_sets_stay_in_order hhooks (fun _ _ hm => hm.1)
    (fun b hb => by rcases hb with hb | hb <;> cases hb) hreach.course
  have hnumber : (s.transactions.find? "m").all (fun t => t.id = ⟨2⟩) = true := by decide +kernel
  refine ⟨by decide +kernel, hlawful, horder, fun t ht => ?_⟩
  rw [ht] at hnumber
  exact (hoff ⟨2⟩ rfl fun _ _ hm => hm.2).1 "m" t ht (of_decide_eq_true hnumber)

end Session

end EntityStore
