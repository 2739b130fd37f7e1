import EntityStore.Hook.Script
import EntityStore.Proofs.Session.Moves
import EntityStore.Proofs.Transaction.Overlay

/-!
# What clients read

However the moves of clients interleave and whatever hooks and callbacks do, every transaction reads
one map, and a commit without repair makes it the committed table. What callbacks write after that
comes on top.
-/

namespace EntityStore

namespace Session

variable {run : HookRunner} {s : Session} {m : Move}

/-- Every transaction that is held is coherent, and none of its entities is being checked. -/
def Coherent (s : Session) : Prop :=
  ∀ {key t}, s.transactions.find? key = some t → t.Coherent none

theorem Coherent.move {hooks : Hooks} {level : Nat} (hs : s.Coherent) (m : Move) :
    (s.move (hooks.runner level) m).Coherent := by
  intro key t ht
  rcases find?_move ht with hheld | ⟨name, rfl⟩ | ⟨op, old, -, hold, rfl⟩
  · exact hs hheld
  · exact s.store.coherent_begin name
  · exact hooks.coherent_perform level op (hs hold)

/-- Every transaction reads the committed entities through its working set, as one map, and a commit
without repair that succeeds makes this map the committed table before any callback runs. The same
holds in the midst of a program that runs in a transaction of its own. -/
theorem reads_are_of_one_map (hooks : Hooks) (level : Nat) (store : Store)
    (hreach : Reach (hooks.runner level) (fun _ _ => True) (start store) s) :
    (∀ key t, s.transactions.find? key = some t →
      Work.Overlays (hooks.runner level) ⟨s.store, t⟩) ∧
    ∀ (name : String) (p : Program Unit),
      (p.run (hooks.runner level) (s.store.begin name)).2.Overlays (hooks.runner level) := by
  have hs : s.Coherent := hreach.invariant (I := Coherent)
    (fun h => by simp [start] at h) fun _ m hu _ => hu.move m
  constructor
  · intro key t ht
    exact Work.overlays (hs ht) _
  · intro name p
    exact Work.overlays (hooks.coherent_run level p (s.store.coherent_begin name)) _

/-- The hooks of entities without scripts. -/
def plainRun : HookRunner := (Script.hooks .builtIn fun _ _ => []).runner 1

/-- A store with two customers and an order. -/
def market : Store :=
  .new .standard (.plain [⟨"ada", .customer "Ada"⟩, ⟨"bob", .customer "Bob"⟩,
    ⟨"first", .order (some "ada") "1"⟩])

/-- One client puts a node in the place of a customer and deletes the order, while another has
renamed the customer. -/
def rearrange : List Move :=
  [.begin "t" "rearranges", .begin "u" "renames",
    .perform "t" (.persist ⟨"bob", .node none⟩), .perform "t" (.delete "first"),
    .perform "t" (.setEnsureIntegrity false),
    .perform "u" (.persist ⟨"bob", .customer "Bobby"⟩), .perform "u" .commit]

example : ((((start market).moves plainRun rearrange).transactions.find? "t").map fun t =>
      (Work.matching ⟨((start market).moves plainRun rearrange).store, t⟩ (.passing none fun _ =>
        true)).map fun e => (e.id, e.tag)) =
    some [("bob", "Node"), ("ada", "Customer")] := by decide +kernel

theorem rearranging_reads_one_map :
    ((start market).moves plainRun rearrange).transactions.contains "t" = true ∧
      ∀ t, ((start market).moves plainRun rearrange).transactions.find? "t" = some t →
        Work.Overlays plainRun ⟨((start market).moves plainRun rearrange).store, t⟩ := by
  refine ⟨by decide +kernel, fun t ht => ?_⟩
  refine (reads_are_of_one_map (Script.hooks .builtIn fun _ _ => []) 1 market ?_).1 "t" t ht
  exact reach_moves ⟨trivial, trivial, trivial, trivial, trivial, trivial, trivial, trivial⟩

/-- A callback that persists a customer in a transaction of its own. -/
def latecomer : Callback :=
  Step.callback ⟨.builtIn, plainRun⟩ "late"
    [.persist (.given (Entity.properties ⟨"late", .customer "Late"⟩))]

/-- A client registers the callback and puts a customer. -/
def expectLatecomer : List Move :=
  [.begin "t" "t", .perform "t" (.afterCommit latecomer),
    .perform "t" (.persist ⟨"ada", .customer "Ada"⟩), .perform "t" (.setEnsureIntegrity false)]

/-- After a commit that has run such a callback, the committed table is not what the transaction has
read. -/
theorem callback_writes_on_top :
    let s := (start (.new .standard (.plain []))).moves plainRun expectLatecomer
    ∃ t w', s.transactions.find? "t" = some t ∧ t.isActive = true ∧ t.ensureIntegrity = false ∧
      Work.commit plainRun ⟨s.store, t⟩ = (.ok (), w') ∧
      Work.overlay ⟨s.store, t⟩ "late" = none ∧
      w'.store.backend.table.find? "late" = some ⟨"late", .customer "Late"⟩ := by
  intro s
  have h : (s.transactions.find? "t").any (fun t =>
      t.isActive && !t.ensureIntegrity &&
        (Work.commit plainRun ⟨s.store, t⟩).1.isOk &&
        decide (Work.overlay ⟨s.store, t⟩ "late" = none) &&
        decide ((Work.commit plainRun ⟨s.store, t⟩).2.store.backend.table.find? "late" =
          some ⟨"late", .customer "Late"⟩)) = true := by decide +kernel
  cases ht : s.transactions.find? "t" with
  | none =>
    rw [ht] at h
    cases h
  | some t =>
    rw [ht] at h
    simp only [Option.any_some, Bool.and_eq_true, Bool.not_eq_true', decide_eq_true_eq] at h
    obtain ⟨⟨⟨⟨hactive, hflag⟩, hok⟩, hunseen⟩, hlate⟩ := h
    cases hcommit : Work.commit plainRun ⟨s.store, t⟩ with
    | mk result w' =>
      rw [hcommit] at hok hlate
      cases result with
      | ok _ => exact ⟨t, w', rfl, hactive, hflag, hcommit, hunseen, hlate⟩
      | error err => cases hok

end Session

end EntityStore
