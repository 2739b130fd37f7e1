import EntityStore.Proofs.Session.Courses
import EntityStore.Proofs.Transaction.Deltas
import EntityStore.Proofs.Transaction.Quiescence
import EntityStore.Proofs.Transaction.WorkingSet

/-!
# Last writes in a session

Between the operations of a client no pass is under way in a transaction, and nothing is recorded of
what it has taken away. So wherever a transaction is found active with auto-commit off, what it
records from there on for an id is told by the operations that count, the last write winning.

Main statement: `Session.deltas_are_last_writes`.
-/

namespace EntityStore

namespace Work

theorem Recording.of_quiescent {w : Work} (hquiet : w.txn.Quiescent)
    (horder : w.txn.Consistent fun _ => False) (hactive : w.txn.state = .active)
    (hauto : w.txn.autoCommit = false) : w.Recording where
  active := hactive
  autoCommit := hauto
  ensuring := hquiet.ensuring rfl
  forgotten hid := by simpa [OrderedMap.contains] using horder.forgotten hid

end Work

namespace Session

variable {hooks : Hooks} {level : Nat} {may : Session → Move → Prop} {store : Store} {s : Session}

/-- Whatever has happened before, what a transaction records while it is active and writes nothing
at once is told by the operations that count: a deletion erases, the last persist gives all fields,
and modifications override them in their order. The same holds of a transaction that belongs to one
program alone. -/
theorem deltas_are_last_writes (hcourse : (start store).Course (hooks.runner level) may s)
    {turns : List Turn} (hturns : ∀ turn ∈ turns, turn.Withholds) :
    (∀ key t, s.transactions.find? key = some t → t.state = .active → t.autoCommit = false →
      ∀ id, Work.Told ⟨s.store, t⟩ (Turn.allCounted (hooks.runner level) turns ⟨s.store, t⟩)
        (Turn.takeAll (hooks.runner level) turns ⟨s.store, t⟩) id) ∧
    ∀ name (α : Type) (p : Program α) (w : Work),
      w = (p.run (hooks.runner level) (s.store.begin name)).2 → w.txn.state = .active →
        w.txn.autoCommit = false →
          ∀ id, w.Told (Turn.allCounted (hooks.runner level) turns w)
            (Turn.takeAll (hooks.runner level) turns w) id := by
  obtain ⟨hquiet, hquietOwn⟩ := maintained_of_course .none (Transaction.quiet_maintained _)
    Store.quiescent_begin hcourse
  obtain ⟨horder, horderOwn⟩ := maintained_of_course (fun _ => False)
    (Transaction.consistent_maintained _) (fun _ _ => .of_empty rfl rfl) hcourse
  refine ⟨fun key t ht hactive hauto id => ?_, fun name α p w hw hactive hauto id => ?_⟩
  · have hrecording : Work.Recording ⟨s.store, t⟩ :=
      .of_quiescent (hquiet key t ht) (horder key t ht) hactive hauto
    exact (hrecording.takeAll _ hturns).told id
  · subst hw
    have hrecording := Work.Recording.of_quiescent (hquietOwn name α p) (horderOwn name α p) hactive
      hauto
    exact (hrecording.takeAll _ hturns).told id

/-! ### Errands -/

/-- Hooks that do nothing. -/
def restful : Hooks := fun _ e => .done ⟨e.body, .ok ()⟩

def bureau : Store :=
  .new .standard (.plain [⟨"bob", .customer "Bob"⟩, ⟨"lot", .order none "1"⟩])

/-- A bit of everything. Of these operations two come to nothing: Bob is gone by then, and Eve was
never there. -/
def errands : List Turn :=
  let ada : Entity := ⟨"ada", .customer "Ada"⟩
  let lot : Entity := ⟨"lot", .order none "1"⟩
  [.perform (.persist ada), .perform (.modified ada "name" (some "Ida")), .perform (.delete "bob"),
    .perform (.persist ⟨"bob", .customer "Bob"⟩), .perform (.modified lot "number" (some "2")),
    .perform (.modified ⟨"eve", .customer "Eve"⟩ "name" (some "Eva")),
    .perform (.modified lot "number" (some "3"))]

theorem counted_errands : Turn.allCounted (restful.runner 1) errands (bureau.begin "errands") =
    [.persist ⟨"ada", .customer "Ada"⟩, .modified ⟨"ada", .customer "Ada"⟩ "name" (some "Ida"),
      .delete "bob", .modified ⟨"lot", .order none "1"⟩ "number" (some "2"),
      .modified ⟨"lot", .order none "1"⟩ "number" (some "3")] := by
  unfold errands
  simp only [Turn.allCounted, Turn.counted]
  rw [if_pos (by decide +kernel), if_pos (by decide +kernel), if_pos (by decide +kernel),
    if_neg (by decide +kernel), if_pos (by decide +kernel), if_neg (by decide +kernel),
    if_pos (by decide +kernel)]
  rfl

theorem errands_are_told :
    let s := (start bureau).begin "t" "errands"
    let w := bureau.begin "errands"
    let w' := Turn.takeAll (restful.runner 1) errands w
    s.transactions.find? "t" = some w.txn ∧ w.txn.state = .active ∧ w.txn.autoCommit = false ∧
      (∀ turn ∈ errands, turn.Withholds) ∧
      w'.txn.deltas.find? "ada" =
        some ((Entity.properties ⟨"ada", .customer "Ada"⟩).insert "name" (some "Ida")) ∧
      w'.txn.deltas.find? "bob" = none ∧ w'.txn.deltas.find? "eve" = none ∧
      w'.txn.deltas.find? "lot" =
        some ((Properties.forId "lot").insert "number" (some "3")) := by
  intro s w w'
  have hcourse : (start bureau).Course (restful.runner 1) (fun _ _ => True) s :=
    .move (m := .begin "t" "errands") .refl trivial
  have hheld : s.transactions.find? "t" = some w.txn := by
    rw [find?_begin]
    rfl
  have hturns : ∀ turn ∈ errands, turn.Withholds := by
    simp [errands, Turn.Withholds, Operation.Withholds]
  have htold (id : EntityId) : w.Told (Turn.allCounted (restful.runner 1) errands w) w' id :=
    (deltas_are_last_writes hcourse hturns).1 "t" w.txn hheld rfl rfl id
  rw [counted_errands] at htold
  refine ⟨hheld, rfl, rfl, hturns, ?_, ?_, ?_, ?_⟩
  · exact ((htold "ada").persisted (List.nil_append _).symm rfl (by decide)).trans
      (by decide +kernel)
  · exact (htold "bob").deleted (.inr (by simp))
  · exact (htold "eve").untouched (by decide)
  · exact ((htold "lot").modified (by decide) (by decide)).trans (by decide +kernel)

end Session

end EntityStore
