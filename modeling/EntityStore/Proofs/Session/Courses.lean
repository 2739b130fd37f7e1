import EntityStore.Proofs.Hook.Script
import EntityStore.Proofs.Session.Bookkeeping
import EntityStore.Proofs.Transaction.Recounting

/-!
# Courses of a session

A course is a run in which, besides the moves of clients, the committed entities may be replaced
from elsewhere at any time. Callbacks may take part: one that transacts makes moves of its own, as
any client could, and lets go of what it has begun. A tale that goes on with every operation and
every transaction begun goes on along the whole course (`Narrates.course`) and through every
callback that transacts (`Narrates.transacts`).
-/

namespace EntityStore

/-- The name under which a move begins a transaction, if it does. -/
def Move.begins? : Move → Option String
  | .begin _ name | .within name _ => some name
  | _ => none

namespace Session

/-- The sessions that a course of permitted moves leads to. What comes from elsewhere is not a
batch, so the log tells nothing of it. -/
inductive Course (run : HookRunner) (may : Session → Move → Prop) (s : Session) : Session → Prop
  | refl : Course run may s s
  | move {u : Session} {m : Move} : Course run may s u → may u m →
      Course run may s (u.move run m)
  | elsewhere {u : Session} {memory : Memory} : Course run may s u →
      memory.log = u.store.backend.memory.log → Course run may s (u.onMemory fun _ => memory)

section

variable {run : HookRunner} {may may' : Session → Move → Prop} {s s' : Session}

theorem Course.mono (h : s.Course run may s') (hmay : ∀ u m, may u m → may' u m) :
    s.Course run may' s' := by
  induction h with
  | refl => exact .refl
  | move _ hm ih => exact ih.move (hmay _ _ hm)
  | elsewhere _ hlog ih => exact ih.elsewhere hlog

theorem Course.congr {run' : HookRunner} (h : s.Course run may s')
    (hsame : ∀ u m, may u m → u.move run m = u.move run' m) : s.Course run' may s' := by
  induction h with
  | refl => exact .refl
  | move _ hm ih => exact hsame _ _ hm ▸ ih.move hm
  | elsewhere _ hlog ih => exact ih.elsewhere hlog

theorem Reach.course (h : Reach run may s s') : s.Course run may s' := by
  induction h with
  | refl => exact .refl
  | move _ hm ih => exact ih.move hm

end

/-- Lets go of every transaction that is held. -/
def close (s : Session) : Store :=
  s.transactions.values.foldl (fun store t => Work.drop ⟨store, t⟩) s.store

theorem stirs_close (s : Session) : s.store.Stirs s.close := by
  unfold close
  generalize s.store = store
  induction s.transactions.values generalizing store with
  | nil => exact .refl store
  | cons t rest ih => exact (Store.Stirs.drop ⟨store, t⟩).trans (ih _)

end Session

/-! ## Callbacks that transact -/

theorem Move.Asks.mono {allowed allowed' : Operation → Prop} {m : Move} (hm : m.Asks allowed)
    (h : ∀ op, allowed op → allowed' op) : m.Asks allowed' := by
  cases m with
  | perform key op => exact h op hm
  | within name p => exact Program.Asks.mono hm h
  | _ => trivial

theorem Move.Asks.registers {calls : Callback → Prop} {m : Move}
    (hm : m.Asks (Operation.Registers calls)) {run : HookRunner} {s : Session} :
    m.Obeys run (fun _ op => op.Registers calls) s :=
  hm.obeys (fun _ _ hop => hop) (Operation.registers_commit calls) run s

namespace Callback

/-- The callback that makes the moves of a plan, as a client whose entities have certain hooks, then
lets go of the transactions that it holds and leaves notes. Plan and notes depend on the store that
it finds. -/
def acting (tag : String) (hooks : Hooks) (level : Nat) (plan : Store → List Move)
    (notes : Store → List Note) : Callback :=
  ⟨tag, fun s =>
    (notes s).foldl Store.note ((Session.start s).moves (hooks.runner level) (plan s)).close⟩

/-- A callback acts through transactions only, and so do those that it and its hooks register. This
is the least such kind of callbacks. -/
def Transacts (c : Callback) : Prop :=
  ∀ calls : Callback → Prop,
    (∀ tag hooks level plan notes, hooks.Ask (Operation.Registers calls) →
      (∀ s, ∀ m ∈ plan s, m.Asks (Operation.Registers calls)) →
      calls (acting tag hooks level plan notes)) → calls c

theorem transacts_acting (tag : String) {hooks : Hooks} (level : Nat) {plan : Store → List Move}
    (notes : Store → List Note) (hhooks : hooks.Ask (Operation.Registers Transacts))
    (hplan : ∀ s, ∀ m ∈ plan s, m.Asks (Operation.Registers Transacts)) :
    (acting tag hooks level plan notes).Transacts := by
  intro calls hcalls
  have hless (op : Operation) (hop : op.Registers Transacts) : op.Registers calls :=
    fun c heq => hop c heq calls hcalls
  exact hcalls tag hooks level plan notes (fun hook e => (hhooks hook e).mono hless)
    fun s m hm => Move.Asks.mono (hplan s m hm) hless

theorem transacts_silent (tag : String) : (silent tag).Transacts := by
  have hhooks : Hooks.Ask (Operation.Registers Transacts) fun _ e => .done ⟨e.body, .ok ()⟩ :=
    fun _ _ => trivial
  have hplan (s : Store) (m : Move) (hm : m ∈ (fun _ => [] : Store → List Move) s) :
      m.Asks (Operation.Registers Transacts) := absurd hm List.not_mem_nil
  exact transacts_acting tag 0 (fun _ => []) hhooks hplan

end Callback

/-! ## Tales of sessions -/

variable {ι γ : Type} [Preorder γ]

/-- A tale that goes on with every transaction begun as well, of which then something is known at
the place where clients are, and which those who listen do not change. -/
structure Narrates (may : Transaction → Operation → Prop) (inner : ι → Prop)
    (J : γ → Store → Prop) (W : ι → γ → Transaction → Prop) (outside : ι) : Prop extends
    Recounts may inner J W where
  begins : ∀ {g s} name, J g s → ∃ g', g ≤ g' ∧ J g' (s.begin name).store ∧
    W outside g' (s.begin name).txn
  listens : ∀ {g s f}, J g s → s.feed.Listens f → J g { s with feed := f }

/-- The tale of the store, and what is known of every transaction that is held. -/
structure Session.Told (J : γ → Store → Prop) (W : γ → Transaction → Prop) (g : γ) (s : Session) :
    Prop where
  store : J g s.store
  held : ∀ {key t}, s.transactions.find? key = some t → W g t ∧ ∀ c ∈ t.callbacks, c.Keeps J

/-- Whatever the hooks of a client do in a transaction of which something is known is permitted. -/
def Hooks.Heed (may : Transaction → Operation → Prop) (known : Transaction → Prop) (hooks : Hooks) :
    Prop :=
  ∀ level hook e w, known w.txn →
    (hooks hook e).Obeys (hooks.runner level) (fun w op => may w.txn op) w

theorem Hooks.Ask.heed {allowed : Operation → Prop} {hooks : Hooks} (h : hooks.Ask allowed)
    {may : Transaction → Operation → Prop} (hmay : ∀ t op, allowed op → may t op)
    (known : Transaction → Prop) : hooks.Heed may known :=
  fun _ hook e w _ => (h hook e).obeys (fun w op hop => hmay w.txn op hop) w

namespace Narrates

variable {may : Transaction → Operation → Prop} {inner : ι → Prop} {J : γ → Store → Prop}
  {W : ι → γ → Transaction → Prop} {outside : ι} {hooks : Hooks} {level : Nat} {g : γ}
  {s s' : Session}

theorem begin_tells (h : Narrates may inner J W outside) {s : Store} (hs : J g s) (name : String) :
    ∃ g', g ≤ g' ∧ (s.begin name).Tells J W g' outside := by
  obtain ⟨g', hle, hbegun, htxn⟩ := h.begins name hs
  exact ⟨g', hle, hbegun, htxn, fun c hc => absurd hc List.not_mem_nil⟩

section Hooks

variable (h : Narrates may inner J W outside) (hhooks : hooks.Heed may fun t => ∃ i g, W i g t)
include h hhooks

theorem keeps (g₀ : γ) (level : Nat) :
    Work.Keeps (hooks.runner level) fun i w => ∃ g, g₀ ≤ g ∧ w.Tells J W g i :=
  (h.invariant g₀).runner (fun level i hook e w ⟨g, _, hw⟩ => hhooks level hook e w ⟨i, g, hw.txn⟩)
    level

theorem program {w : Work} {i : ι} {α : Type} {p : Program α}
    (hp : p.Obeys (hooks.runner level) (fun w op => may w.txn op) w) (hw : w.Tells J W g i) :
    ∃ g', g ≤ g' ∧ (p.run (hooks.runner level) w).2.Tells J W g' i :=
  (h.invariant g).program (h.keeps hhooks g level) hp ⟨g, le_refl g, hw⟩

theorem perform {w : Work} {i : ι} {op : Operation} (hop : may w.txn op) (hw : w.Tells J W g i) :
    ∃ g', g ≤ g' ∧ (op.perform (hooks.runner level) w).2.Tells J W g' i :=
  (h.invariant g).perform (h.keeps hhooks g level) hop ⟨g, le_refl g, hw⟩

theorem own {s : Store} (hs : J g s) {name : String} {α : Type} {p : Program α}
    (hp : p.Obeys (hooks.runner level) (fun w op => may w.txn op) (s.begin name)) :
    ∃ g', g ≤ g' ∧ (p.run (hooks.runner level) (s.begin name)).2.Tells J W g' outside := by
  obtain ⟨g₁, hle, hbegun⟩ := h.begin_tells hs name
  obtain ⟨g₂, hle', hw⟩ := h.program hhooks hp hbegun
  exact ⟨g₂, le_trans hle hle', hw⟩

theorem within {s : Store} (hs : J g s) {name : String} {p : Program (Result Unit)}
    (hp : p.Obeys (hooks.runner level) (fun w op => may w.txn op) (s.begin name)) :
    ∃ g', g ≤ g' ∧ W outside g' (s.begin name).txn ∧
      J g' (s.within (hooks.runner level) name (p.run (hooks.runner level))).2 := by
  obtain ⟨g₁, hbegins, hbegun⟩ := h.begin_tells hs name
  obtain ⟨g₂, hran, hw⟩ := h.program hhooks hp hbegun
  have hle := le_trans hbegins hran
  have hkeeps := h.keeps hhooks g₂ level
  rcases s.within_store (hooks.runner level) name (p.run (hooks.runner level)) with heq | heq
  · obtain ⟨g₃, hle', hended⟩ := (h.invariant g₂).rollback ⟨g₂, le_refl g₂, hw⟩
    rw [heq]
    exact ⟨g₃, le_trans hle hle', h.grows hbegun.txn (le_trans hran hle'),
      h.stirs hended.store (.drop _)⟩
  · obtain ⟨g₃, hle', hended⟩ := (h.invariant g₂).commit hkeeps ⟨g₂, le_refl g₂, hw⟩
    rw [heq]
    exact ⟨g₃, le_trans hle hle', h.grows hbegun.txn (le_trans hran hle'),
      h.stirs hended.store (.drop _)⟩

end Hooks

/-! ## Moves and courses -/

theorem onward (h : Narrates may inner J W outside) {g' : γ} (hle : g ≤ g')
    (hs : s.Told J (W outside) g) (hstore : J g' s'.store)
    (hheld : ∀ {key t}, s'.transactions.find? key = some t → s.transactions.find? key = some t) :
    s'.Told J (W outside) g' where
  store := hstore
  held ht := ⟨h.grows (hs.held (hheld ht)).1 hle, (hs.held (hheld ht)).2⟩

theorem hold (h : Narrates may inner J W outside) {g' : γ} (hle : g ≤ g')
    (hs : s.Told J (W outside) g) {w : Work} (hw : w.Tells J W g' outside) (key : String) :
    ({ s with store := w.store, transactions := s.transactions.insert key w.txn } :
      Session).Told J (W outside) g' where
  store := hw.store
  held := by
    intro other t ht
    simp only [OrderedMap.find?_insert] at ht
    split at ht
    · cases ht
      exact ⟨hw.txn, hw.callbacks⟩
    · obtain ⟨htxn, hcallbacks⟩ := hs.held ht
      exact ⟨h.grows htxn hle, hcallbacks⟩

theorem subscribe (h : Narrates may inner J W outside) {store : Store} (hs : J g store)
    (l : Listeners) (name : String) :
    J g { store with feed := (l.subscribe name store.feed).2 } := by
  have hopened := h.listens hs .subscribe
  rw [Listeners.subscribe]
  cases l.find? name with
  | none => exact hopened
  | some old =>
    exact h.listens (s := { store with feed := store.feed.subscribe.2 }) hopened (.close old)

theorem unsubscribe (h : Narrates may inner J W outside) {store : Store} (hs : J g store)
    (l : Listeners) (name : String) :
    J g { store with feed := (l.unsubscribe name store.feed).2.2 } := by
  rw [Listeners.unsubscribe]
  cases l.find? name with
  | none => exact hs
  | some number => exact h.listens hs (.close number)

theorem drain (h : Narrates may inner J W outside) {store : Store} (hs : J g store)
    (l : Listeners) (name : String) : J g { store with feed := (l.drain name store.feed).2 } := by
  rw [Listeners.drain]
  cases l.find? name with
  | none => exact hs
  | some number => exact h.listens hs (.drain number)

/-- The tale goes on with every permitted move. What is known of a transaction that the move begins
is known from its beginning. -/
theorem move (h : Narrates may inner J W outside)
    (hhooks : hooks.Heed may fun t => ∃ i g, W i g t) (hs : s.Told J (W outside) g) {m : Move}
    (hm : m.Obeys (hooks.runner level) (fun w op => may w.txn op) s) :
    ∃ g', g ≤ g' ∧ (s.move (hooks.runner level) m).Told J (W outside) g' ∧
      ∀ name, m.begins? = some name → W outside g' (s.store.begin name).txn := by
  cases m with
  | begin key name =>
    obtain ⟨g', hle, hw⟩ := h.begin_tells hs.store name
    have hbegun := h.hold hle hs hw key
    rw [Session.move, Session.begin]
    refine ⟨g', hle, ?_, fun _ heq => Option.some.inj heq ▸ hw.txn⟩
    cases s.transactions.find? key with
    | none => exact hbegun
    | some old => exact h.onward (le_refl g') hbegun (h.stirs hbegun.store (.drop ⟨_, old⟩)) id
  | drop key =>
    rw [Session.move, Session.drop]
    refine ⟨g, le_refl g, ?_, by simp [Move.begins?]⟩
    cases s.transactions.find? key with
    | none => exact hs
    | some t =>
      exact h.onward (le_refl g) hs (h.stirs hs.store (.drop ⟨s.store, t⟩))
        fun ht => (OrderedMap.find?_erase_eq_some.1 ht).2
  | perform key op =>
    simp only [Session.move, Session.perform]
    cases ht : s.transactions.find? key with
    | none => exact ⟨g, le_refl g, hs, by simp [Move.begins?]⟩
    | some t =>
      obtain ⟨htxn, hcallbacks⟩ := hs.held ht
      obtain ⟨g', hle, hw⟩ : ∃ g', g ≤ g' ∧
          (op.perform (hooks.runner level) ⟨s.store, t⟩).2.Tells J W g' outside :=
        h.perform hhooks (hm t ht) ⟨hs.store, htxn, hcallbacks⟩
      exact ⟨g', hle, h.hold hle hs hw key, by simp [Move.begins?]⟩
  | within name p =>
    obtain ⟨g', hle, hbegun, hstore⟩ := h.within hhooks hs.store hm.1
    exact ⟨g', hle, h.onward hle hs hstore id, fun _ heq => Option.some.inj heq ▸ hbegun⟩
  | subscribe listener =>
    exact ⟨g, le_refl g, h.onward (le_refl g) hs (h.subscribe hs.store s.listeners listener) id,
      by simp [Move.begins?]⟩
  | unsubscribe listener =>
    exact ⟨g, le_refl g, h.onward (le_refl g) hs (h.unsubscribe hs.store s.listeners listener) id,
      by simp [Move.begins?]⟩
  | drain listener =>
    exact ⟨g, le_refl g, h.onward (le_refl g) hs (h.drain hs.store s.listeners listener) id,
      by simp [Move.begins?]⟩

/-- The tale goes on along a course of permitted moves. -/
theorem course (h : Narrates may inner J W outside)
    (hhooks : hooks.Heed may fun t => ∃ i g, W i g t) (hs : s.Told J (W outside) g)
    (hcourse : s.Course (hooks.runner level)
      (fun u m => m.Obeys (hooks.runner level) (fun w op => may w.txn op) u) s') :
    ∃ g', g ≤ g' ∧ s'.Told J (W outside) g' := by
  induction hcourse with
  | refl => exact ⟨g, le_refl g, hs⟩
  | move _ hm ih =>
    obtain ⟨g₁, hle, hu⟩ := ih
    obtain ⟨g₂, hle', hmoved, -⟩ := h.move hhooks hu hm
    exact ⟨g₂, le_trans hle hle', hmoved⟩
  | elsewhere _ hlog ih =>
    obtain ⟨g₁, hle, hu⟩ := ih
    exact ⟨g₁, hle, h.onward (le_refl g₁) hu (h.stirs hu.store (.elsewhere _ hlog)) id⟩

theorem moves (h : Narrates may inner J W outside) (level : Nat) {allowed : Operation → Prop}
    (hhooks : hooks.Ask allowed) (hmay : ∀ t op, allowed op → may t op) (hcommit : allowed .commit)
    {ms : List Move} (hms : ∀ m ∈ ms, m.Asks allowed) (hs : s.Told J (W outside) g) :
    ∃ g', g ≤ g' ∧ (s.moves (hooks.runner level) ms).Told J (W outside) g' := by
  induction ms generalizing s g with
  | nil => exact ⟨g, le_refl g, hs⟩
  | cons m rest ih =>
    have hm := (hms m List.mem_cons_self).obeys (fun w op hop => hmay w.txn op hop) hcommit
      (hooks.runner level) s
    obtain ⟨g₁, hle, hmoved, -⟩ := h.move (hhooks.heed hmay _) hs hm
    obtain ⟨g₂, hle', hrest⟩ := ih (fun m hm => hms m (List.mem_cons_of_mem _ hm)) hmoved
    exact ⟨g₂, le_trans hle hle', hrest⟩

/-- A tale that asks of operations only that callbacks carry it on is carried on by every callback
that transacts. -/
theorem transacts
    (h : Narrates (fun _ op => op.Registers (Callback.Keeps J)) inner J W outside) {c : Callback}
    (hc : c.Transacts) : c.Keeps J := by
  refine hc (Callback.Keeps J) fun tag hooks level plan notes hhooks hplan g store hstore => ?_
  rw [Callback.run]
  have hnoted := h.stirs hstore (.note store (.callback tag store.backend.size
    store.statistics.entitiesWritten))
  have hstart : (Session.start (store.note (.callback tag store.backend.size
      store.statistics.entitiesWritten))).Told J (W outside) g :=
    ⟨hnoted, fun ht => by cases ht⟩
  obtain ⟨g', hle, hmoved⟩ := h.moves level hhooks (fun _ _ hop => hop)
    (Operation.registers_commit _) (hplan _) hstart
  refine ⟨g', hle, ?_⟩
  have hclosed := h.stirs hmoved.store (Session.stirs_close _)
  exact List.foldlRecOn _ _ hclosed fun s hs entry _ => h.stirs hs (.note s entry)

end Narrates

/-! ## What stands whatever comes of a store -/

/-- Something that stands in a store, whatever is written, published and counted. -/
structure Store.Standing (J : Store → Prop) : Prop where
  stirs : ∀ {s s'}, J s → s.Stirs s' → J s'
  update : ∀ {s batch result b}, J s → s.backend.update batch = (result, b) →
    J (s.onBackend fun _ => b)
  publish : ∀ {s} change, J s → J (s.publish change)
  countBatch : ∀ {s} written deleted, J s → J (s.count (·.countBatch written deleted))
  begins : ∀ {s} name, J s → J (s.begin name).store
  listens : ∀ {s f}, J s → s.feed.Listens f → J { s with feed := f }

theorem Store.Standing.narrates {J : Store → Prop} (h : Store.Standing J)
    {may : Transaction → Operation → Prop} {inner : ι → Prop} {W : ι → Unit → Transaction → Prop}
    {outside : ι} (htxn : Transaction.Maintained may inner W)
    (hregisters : ∀ {t c}, may t (.afterCommit c) → c.Keeps fun (_ : Unit) => J)
    (hbegins : ∀ {s} name, J s → W outside () (s.begin name).txn) :
    Narrates may inner (fun _ => J) W outside where
  txn := htxn
  grows hw _ := hw
  registers := hregisters
  stirs := h.stirs
  rejected _ hs _ hupdate := h.update hs hupdate
  applied _ hs _ hupdate :=
    ⟨(), h.publish _ (h.update hs hupdate), fun _ _ _ hs => ⟨(), le_refl _, h.countBatch _ _ hs⟩⟩
  begins name hs := ⟨(), le_refl _, h.begins name hs, hbegins name hs⟩
  listens := h.listens

theorem Store.standing_true : Standing fun _ => True :=
  ⟨fun _ _ => trivial, fun _ _ => trivial, fun _ _ => trivial, fun _ _ _ => trivial,
    fun _ _ => trivial, fun _ _ => trivial⟩

theorem Move.asks_true (m : Move) : m.Asks fun _ => True := by
  cases m with
  | within name p => exact p.asks_true
  | _ => trivial

/-- What is known of every transaction from its beginning, whatever happens to it, is known of those
that are held and at the end of every program that runs in a transaction of its own. -/
theorem Session.maintained_of_course {hooks : Hooks} {level : Nat} {may : Session → Move → Prop}
    {store : Store} {s : Session} {ι : Type} {inner : ι → Prop} {W : ι → Unit → Transaction → Prop}
    (outside : ι) (h : Transaction.Maintained (fun _ _ => True) inner W)
    (hbegins : ∀ (s : Store) name, W outside () (s.begin name).txn)
    (hcourse : (Session.start store).Course (hooks.runner level) may s) :
    (∀ key t, s.transactions.find? key = some t → W outside () t) ∧
    ∀ name (α : Type) (p : Program α),
      W outside () (p.run (hooks.runner level) (s.store.begin name)).2.txn := by
  have hnarrates : Narrates (fun _ _ => True) inner (fun (_ : Unit) _ => True) W outside :=
    Store.standing_true.narrates h (fun _ _ _ _ => ⟨(), le_refl _, trivial⟩)
      fun {s} name _ => hbegins s name
  have hheed : hooks.Heed (fun _ _ => True) fun t => ∃ i g, W i g t :=
    Hooks.Ask.heed (fun hook e => (hooks hook e).asks_true) (fun _ _ _ => trivial) _
  obtain ⟨_, -, htold⟩ := hnarrates.course (g := ()) hheed ⟨trivial, fun ht => by cases ht⟩
    (hcourse.mono fun u m _ => m.asks_true.obeys (fun _ _ _ => trivial) trivial _ u)
  refine ⟨fun key t ht => (htold.held ht).1, fun name α p => ?_⟩
  obtain ⟨_, -, hended⟩ := hnarrates.own (g := ()) hheed htold.store
    (p.asks_true.obeys (fun _ _ _ => trivial) (s.store.begin name))
  exact hended.txn

theorem Transaction.maintained_of_name {γ : Type} (may : Transaction → Operation → Prop)
    (known : γ → TransactionId → String → Prop) :
    Maintained may (fun _ => True) fun (_ : Unit) g t => known g t.id t.name where
  snapshot h _ := h
  field h _ := h
  deletion h _ := h
  setting h _ hsets := by cases hsets <;> exact h
  callbacks _ h := h
  idle h _ _ := h
  committing h _ := ⟨(), trivial, h, fun _ _ hu => ⟨hu, hu⟩⟩
  rollingBack h _ := h
  atOnce h _ _ _ := ⟨(), trivial, h, fun _ _ hu => ⟨hu, hu⟩⟩
  pass _ h := ⟨(), trivial, h, fun _ _ hu => hu⟩
  check _ h _ := by
    refine ⟨(), h, fun _ _ u hu => ?_⟩
    unfold Work.checkIn Work.onTxn
    dsimp only
    split <;> exact hu

theorem Callback.Transacts.keeps {J : Store → Prop} (h : Store.Standing J) {c : Callback}
    (hc : c.Transacts) : c.Keeps fun (_ : Unit) => J := by
  have hnarrates : Narrates (fun _ op => op.Registers (Callback.Keeps fun (_ : Unit) => J))
      (fun _ => True) (fun _ => J) (fun (_ _ : Unit) _ => True) () :=
    h.narrates (Transaction.maintained_of_name _ fun _ _ _ => True) (fun hop => hop _ rfl)
      fun _ _ => trivial
  exact hnarrates.transacts hc

end EntityStore
