import EntityStore.Proofs.Repair.Pass
import EntityStore.Proofs.Transaction.Recounting

/-!
# Working sets in order

An id is not both to be put and taken away, and what was recorded of an entity is kept only as long
as the entity is to be put. While an entity is out for its check this is broken on purpose: what was
recorded of it stays, for it will come back unless it was deleted (`Transaction.Consistent`). So the
invariant names the entities that are out, and a check that sets off others lets one more go
(`Transaction.consistent_maintained`).

The converse, that something was recorded of every entity that is to be put, needs auto-commit to be
off: otherwise a hook that commits has everything forgotten, and the entity that is out comes back
with nothing recorded of it. Without auto-commit nothing is forgotten while a batch is written,
since hooks cannot end a transaction that is committing (`Transaction.recorded_maintained`).
-/

namespace EntityStore

/-- A batch puts no id twice, and none that it takes away. -/
structure Batch.Lawful (b : Batch) : Prop where
  once : (b.modified.map (·.id)).Nodup
  apart : ∀ e ∈ b.modified, b.deleted.contains e.id = false

namespace Transaction

/-! ## What is put, taken away and recorded -/

/-- The working set is in order, if some entities are out for their checks. -/
structure Consistent (out : EntityId → Prop) (t : Transaction) : Prop where
  apart : t.Apart
  /-- Nothing is kept of what is taken away. -/
  forgotten : ∀ {id}, t.deleted.contains id = true → t.deltas.contains id = false
  put : ∀ {id}, t.deltas.contains id = true → t.modified.contains id = true ∨ out id

variable {out : EntityId → Prop} {t t' : Transaction}

theorem Consistent.of_eq (h : t.Consistent out) (hmodified : t'.modified = t.modified)
    (hdeleted : t'.deleted = t.deleted) (hdeltas : t'.deltas = t.deltas) : t'.Consistent out where
  apart id hid := hmodified ▸ h.apart id (hdeleted ▸ hid)
  forgotten hid := hdeltas ▸ h.forgotten (hdeleted ▸ hid)
  put hid := hmodified ▸ h.put (hdeltas ▸ hid)

theorem Consistent.of_empty (hmodified : t.modified = .empty) (hdeltas : t.deltas = .empty) :
    t.Consistent out where
  apart := .of_empty hmodified
  forgotten _ := hdeltas ▸ rfl
  put hid := by
    rw [hdeltas] at hid
    cases hid

/-- An entity joins with something recorded of it. -/
theorem Consistent.record (h : t.Consistent out) {e : Entity} {recorded : Properties}
    (hfresh : t.deleted.contains e.id = false) (hmodified : t'.modified = t.modified.add e)
    (hdeleted : t'.deleted = t.deleted) (hdeltas : t'.deltas = t.deltas.insert e.id recorded) :
    t'.Consistent out where
  apart := h.apart.put hfresh hmodified hdeleted
  forgotten {id} hid := by
    rw [hdeleted] at hid
    have hne : e.id ≠ id := by
      rintro rfl
      exact absurd (hfresh.symm.trans hid) (by simp)
    rw [hdeltas, OrderedMap.contains_insert]
    simp [hne, h.forgotten hid]
  put {id} hid := by
    rw [hdeltas, OrderedMap.contains_insert] at hid
    rw [hmodified, Index.contains_add]
    by_cases hid' : e.id = id
    · simp [hid']
    · simpa [hid'] using h.put (by simpa [hid'] using hid)

theorem Consistent.recordDeletion (h : t.Consistent out) (id : EntityId) :
    (t.recordDeletion id).Consistent out where
  apart := h.apart.recordDeletion id
  forgotten {other} hother := by
    simp only [Transaction.recordDeletion, OrderedMap.contains_add, Bool.or_eq_true,
      decide_eq_true_iff] at hother
    simp only [Transaction.recordDeletion, OrderedMap.contains_erase]
    rcases hother with rfl | hother
    · simp
    · simp [h.forgotten hother]
  put {other} hother := by
    simp only [Transaction.recordDeletion, OrderedMap.contains_erase] at hother
    simp only [Transaction.recordDeletion, Index.contains_remove]
    by_cases hne : id = other
    · simp [hne] at hother
    · simpa [hne] using h.put (by simpa [hne] using hother)

theorem Consistent.checkOut {w : Work} (h : w.txn.Consistent out) (id : EntityId) :
    (w.checkOut id).txn.Consistent fun other =>
      out other ∨ other = id ∧ w.txn.modified.contains id = true where
  apart := h.apart.unput id rfl fun _ => .inr
  forgotten := h.forgotten
  put {other} hother := by
    simp only [Work.checkOut, Work.onTxn, Index.contains_remove]
    by_cases hne : id = other
    · subst hne
      exact .inr ((h.put hother).elim (fun hput => .inr ⟨rfl, hput⟩) .inl)
    · simpa [hne, Ne.symm hne] using h.put hother

/-- The entity comes back, unless it has been deleted. -/
theorem Consistent.checkIn {w : Work} {id : EntityId} {tracked : Bool}
    (h : w.txn.Consistent fun other => out other ∨ other = id ∧ tracked = true) (body : Body) :
    (w.checkIn tracked ⟨id, body⟩).txn.Consistent out := by
  unfold Work.checkIn Work.onTxn
  dsimp only
  split
  · rename_i hjoins
    rw [Bool.and_eq_true, Bool.not_eq_true'] at hjoins
    refine ⟨h.apart.put hjoins.1 rfl rfl, h.forgotten, fun {other} hother => ?_⟩
    rw [Index.contains_add]
    rcases h.put hother with hput | hout | ⟨rfl, -⟩
    · simp [hput]
    · exact .inr hout
    · simp
  · rename_i hstays
    refine ⟨h.apart, h.forgotten, fun {other} hother => ?_⟩
    rcases h.put hother with hput | hout | ⟨rfl, htracked⟩
    · exact .inl hput
    · exact .inr hout
    · -- it was deleted, so nothing can have been kept of it
      have hdeleted : w.txn.deleted.contains other = true := by simpa [htracked] using hstays
      exact absurd (hother.symm.trans (h.forgotten hdeleted)) (by simp)

theorem Consistent.batch (h : t.Consistent out) : t.batch.Lawful := by
  refine ⟨?_, fun e he => h.apart.alive (Index.mem_map_id_toList_iff.1 (List.mem_map_of_mem he))⟩
  rw [Transaction.batch, Index.map_id_toList]
  exact Index.nodup_ids _

/-- Whatever happens to a transaction, its working set stays in order. -/
theorem consistent_maintained (may : Transaction → Operation → Prop) :
    Maintained may (fun _ => True) fun out (_ : Unit) t => t.Consistent out where
  snapshot h hfresh := h.record hfresh rfl rfl rfl
  field h hfresh := h.record hfresh rfl rfl rfl
  deletion h _ := h.recordDeletion _
  setting h _ hsets := by cases hsets <;> exact h.of_eq rfl rfl rfl
  callbacks _ h := h.of_eq rfl rfl rfl
  idle h _ _ := h.of_eq rfl rfl rfl
  committing {out _ _} h _ :=
    ⟨out, trivial, h.of_eq rfl rfl rfl, fun _ _ hu => ⟨hu.of_eq rfl rfl rfl, .of_empty rfl rfl⟩⟩
  rollingBack _ _ := .of_empty rfl rfl
  atOnce {out _ _} h _ _ _ := ⟨out, trivial, h, fun _ _ hu => ⟨hu, .of_empty rfl rfl⟩⟩
  pass {out _ _} _ h := ⟨out, trivial, h.of_eq rfl rfl rfl, fun _ _ hu => hu.of_eq rfl rfl rfl⟩
  check {_ _ id _} _ h _ := ⟨_, h.checkOut id, fun body _ _ hu => hu.checkIn body⟩

/-! ## What was recorded of what is put -/

/-- Something was recorded of every entity that is to be put. -/
def Recorded (t : Transaction) : Prop :=
  ∀ id, t.modified.contains id = true → t.deltas.contains id = true

/-- Auto-commit is off in a transaction, and something was recorded of every entity that is to be
put. -/
structure Manual (t : Transaction) : Prop where
  autoCommit : t.autoCommit = false
  recorded : t.Recorded

theorem Manual.of_eq (h : t.Manual) (hauto : t'.autoCommit = t.autoCommit)
    (hmodified : t'.modified = t.modified) (hdeltas : t'.deltas = t.deltas) : t'.Manual :=
  ⟨hauto.trans h.autoCommit, fun id hid => hdeltas ▸ h.recorded id (hmodified ▸ hid)⟩

theorem Manual.of_empty (hauto : t.autoCommit = false) (hmodified : t.modified = .empty) :
    t.Manual := by
  refine ⟨hauto, fun id hid => ?_⟩
  rw [hmodified] at hid
  cases hid

theorem Manual.record (h : t.Manual) {e : Entity} {recorded : Properties}
    (hauto : t'.autoCommit = t.autoCommit) (hmodified : t'.modified = t.modified.add e)
    (hdeltas : t'.deltas = t.deltas.insert e.id recorded) : t'.Manual := by
  refine ⟨hauto.trans h.autoCommit, fun id hid => ?_⟩
  rw [hmodified, Index.contains_add] at hid
  rw [hdeltas, OrderedMap.contains_insert]
  by_cases hne : e.id = id
  · simp [hne]
  · simpa [hne] using h.recorded id (by simpa [hne] using hid)

theorem Manual.recordDeletion (h : t.Manual) (id : EntityId) : (t.recordDeletion id).Manual := by
  refine ⟨h.autoCommit, fun other hother => ?_⟩
  simp only [Transaction.recordDeletion, Index.contains_remove, Bool.and_eq_true] at hother
  simp only [Transaction.recordDeletion, OrderedMap.contains_erase, Bool.and_eq_true]
  exact ⟨by simpa using hother.1, h.recorded other hother.2⟩

/-- How far a transaction is, if it is the one in question. -/
inductive Stage where
  /-- No batch of the transaction is being written. -/
  | outside
  /-- The transaction is not the one in question. -/
  | elsewhere
  /-- Its batch is being written, while some entities are out for their checks. -/
  | writing (out : EntityId → Prop)

/-- What is known of the transaction with a number. -/
def AtStage (number : TransactionId) : Stage → Transaction → Prop
  | .outside, t => t.id = number → t.Manual
  | .elsewhere, t => t.id ≠ number
  | .writing out, t => t.id = number ∧ t.state = .committing ∧ t.Manual ∧
      ∀ id, out id → t.deltas.contains id = true ∨ t.deleted.contains id = true

variable {number : TransactionId} {stage : Stage}

theorem AtStage.keep (h : t.AtStage number stage) (hid : t'.id = t.id) (hstate : t'.state = t.state)
    (hmanual : t.id = number → t.Manual → t'.Manual)
    (hkept : ∀ id, t.deltas.contains id = true ∨ t.deleted.contains id = true →
      t'.deltas.contains id = true ∨ t'.deleted.contains id = true) : t'.AtStage number stage := by
  cases stage with
  | outside => exact fun heq => hmanual (hid.symm.trans heq) (h (hid.symm.trans heq))
  | elsewhere => exact fun heq => h (hid.symm.trans heq)
  | writing out =>
    exact ⟨hid.trans h.1, hstate.trans h.2.1, hmanual h.1 h.2.2.1, fun id hout =>
      hkept id (h.2.2.2 id hout)⟩

theorem AtStage.record (h : t.AtStage number stage) {e : Entity} {recorded : Properties}
    (hid : t'.id = t.id) (hstate : t'.state = t.state) (hauto : t'.autoCommit = t.autoCommit)
    (hmodified : t'.modified = t.modified.add e) (hdeleted : t'.deleted = t.deleted)
    (hdeltas : t'.deltas = t.deltas.insert e.id recorded) : t'.AtStage number stage := by
  refine h.keep hid hstate (fun _ hmanual => hmanual.record hauto hmodified hdeltas)
    fun id hkept => ?_
  rw [hdeltas, OrderedMap.contains_insert, hdeleted]
  exact hkept.imp_left fun hdelta => by simp [hdelta]

theorem AtStage.active (h : t.AtStage number stage) (hactive : t.state = .active)
    (hid : t'.id = t.id) (hmanual : t.Manual → t'.Manual) : t'.AtStage number stage := by
  cases stage with
  | outside => exact fun heq => hmanual (h (hid.symm.trans heq))
  | elsewhere => exact fun heq => h (hid.symm.trans heq)
  | writing out => exact absurd (hactive.symm.trans h.2.1) (by simp)

theorem AtStage.leave {inner : Stage} (h : t.AtStage number inner)
    (hplace : stage = .outside ∨ stage = .elsewhere ∧ inner = .elsewhere)
    (hinner : inner ≠ .outside) (hid : t'.id = t.id) (hmanual : t.Manual → t'.Manual) :
    t'.AtStage number stage := by
  rcases hplace with rfl | ⟨rfl, rfl⟩
  · cases inner with
    | outside => exact absurd rfl hinner
    | elsewhere => exact fun heq => absurd (hid.symm.trans heq) h
    | writing out => exact fun _ => hmanual h.2.2.1
  · exact fun heq => h (hid.symm.trans heq)

theorem AtStage.checkOut {w : Work} (h : w.txn.AtStage number (.writing out)) (id : EntityId) :
    (w.checkOut id).txn.AtStage number
      (.writing fun other => out other ∨ other = id ∧ w.txn.modified.contains id = true) := by
  obtain ⟨hid, hstate, hmanual, hout⟩ := h
  refine ⟨hid, hstate, ⟨hmanual.autoCommit, fun other hother => ?_⟩, fun other hother => ?_⟩
  · simp only [Work.checkOut, Work.onTxn, Index.contains_remove, Bool.and_eq_true] at hother
    exact hmanual.recorded other hother.2
  · rcases hother with hother | ⟨rfl, hput⟩
    · exact hout other hother
    · exact .inl (hmanual.recorded other hput)

/-- The entity comes back with what was recorded of it, unless it has been deleted. -/
theorem AtStage.checkIn {w : Work} {id : EntityId} {tracked : Bool}
    (h : w.txn.AtStage number (.writing fun other => out other ∨ other = id ∧ tracked = true))
    (body : Body) : (w.checkIn tracked ⟨id, body⟩).txn.AtStage number (.writing out) := by
  obtain ⟨hid, hstate, hmanual, hout⟩ := h
  have hrest (other : EntityId) (hother : out other) := hout other (.inl hother)
  unfold Work.checkIn Work.onTxn
  dsimp only
  split
  · rename_i hjoins
    refine ⟨hid, hstate, ⟨hmanual.autoCommit, fun other hother => ?_⟩, hrest⟩
    rw [Index.contains_add, Bool.or_eq_true, decide_eq_true_iff] at hother
    rcases hother with rfl | hother
    · simp only [Bool.and_eq_true, Bool.not_eq_true', Bool.or_eq_true] at hjoins
      rcases hjoins.2 with htracked | hput
      · exact (hout id (.inr ⟨rfl, htracked⟩)).resolve_right (by simp [hjoins.1])
      · exact hmanual.recorded id hput
    · exact hmanual.recorded other hother
  · exact ⟨hid, hstate, ⟨hmanual.autoCommit, hmanual.recorded⟩, hrest⟩

/-- As long as nobody turns auto-commit on in a transaction, something is recorded of every entity
that it is to put. -/
theorem recorded_maintained {may : Transaction → Operation → Prop} {number : TransactionId}
    (hoff : ∀ {t op}, may t op → t.id = number → op ≠ .setAutoCommit true) :
    Maintained may (· ≠ .outside) fun stage (_ : Unit) t => t.AtStage number stage where
  snapshot h _ := h.record rfl rfl rfl rfl rfl rfl
  field h _ := h.record rfl rfl rfl rfl rfl rfl
  deletion {stage _ t id} h _ := by
    refine h.keep rfl rfl (fun _ hmanual => hmanual.recordDeletion id) fun other hother => ?_
    simp only [Transaction.recordDeletion, OrderedMap.contains_erase, OrderedMap.contains_add]
    by_cases hne : id = other <;> simp_all
  setting {stage _ t op change} h hmay hsets := by
    cases hsets with
    | autoCommit value =>
      refine h.keep rfl rfl (fun hid hmanual => ⟨?_, hmanual.recorded⟩) fun _ hkept => hkept
      cases value with
      | false => rfl
      | true => exact absurd rfl (hoff hmay hid)
    | ignoreModifications value | ensureIntegrity value =>
      exact h.keep rfl rfl (fun _ hmanual => hmanual.of_eq rfl rfl rfl) fun _ hkept => hkept
  callbacks _ h :=
    h.keep rfl rfl (fun _ hmanual => hmanual.of_eq rfl rfl rfl) fun _ hkept => hkept
  idle h hactive _ := h.active hactive rfl fun hmanual => hmanual.of_eq rfl rfl rfl
  committing {stage _ t} h hactive := by
    -- the write is at a stage of its own, and leaves it whatever comes of it
    have back (inner : Stage) (hinner : inner ≠ .outside)
        (hplace : stage = .outside ∨ stage = .elsewhere ∧ inner = .elsewhere) (g : Unit)
        (u : Transaction) (hu : u.AtStage number inner) :
        AtStage number stage { u with state := .active } ∧
          AtStage number stage { u.clearPending with state := .committed } :=
      ⟨hu.leave hplace hinner rfl fun hmanual => hmanual.of_eq rfl rfl rfl,
        hu.leave hplace hinner rfl fun hmanual => .of_empty hmanual.autoCommit rfl⟩
    cases stage with
    | outside =>
      by_cases hid : t.id = number
      · refine ⟨.writing fun _ => False, by simp, ?_, back _ (by simp) (.inl rfl)⟩
        exact ⟨hid, rfl, (h hid).of_eq rfl rfl rfl, fun _ => False.elim⟩
      · exact ⟨.elsewhere, by simp, hid, back _ (by simp) (.inl rfl)⟩
    | elsewhere => exact ⟨.elsewhere, by simp, h, back _ (by simp) (.inr ⟨rfl, rfl⟩)⟩
    | writing out => exact absurd (hactive.symm.trans h.2.1) (by simp)
  rollingBack h hactive := h.active hactive rfl fun hmanual => .of_empty hmanual.autoCommit rfl
  atOnce {stage _ t} h hauto _ _ := by
    have back (hplace : stage = .outside ∨ stage = .elsewhere) (g : Unit) (u : Transaction)
        (hu : u.AtStage number .elsewhere) :
        u.AtStage number stage ∧ u.clearPending.AtStage number stage :=
      ⟨hu.leave (hplace.imp_right fun h => ⟨h, rfl⟩) (by simp) rfl fun hmanual => hmanual,
        hu.leave (hplace.imp_right fun h => ⟨h, rfl⟩) (by simp) rfl
          fun hmanual => .of_empty hmanual.autoCommit rfl⟩
    have hon (hmanual : t.Manual) : False := by simp [hmanual.autoCommit] at hauto
    cases stage with
    | outside => exact ⟨.elsewhere, by simp, fun hid => hon (h hid), back (.inl rfl)⟩
    | elsewhere => exact ⟨.elsewhere, by simp, h, back (.inr rfl)⟩
    | writing out => exact (hon h.2.2.1).elim
  pass {stage _ t} hinner h := by
    have mark (value : Bool) (u : Transaction) (hu : u.AtStage number stage) :
        AtStage number stage { u with ensuring := value } :=
      hu.keep rfl rfl (fun _ hmanual => hmanual.of_eq rfl rfl rfl) fun _ hkept => hkept
    exact ⟨stage, hinner, mark true t h, fun _ u hu => mark false u hu⟩
  check {stage _ id w} hinner h _ := by
    cases stage with
    | outside => exact absurd rfl hinner
    | elsewhere =>
      refine ⟨.elsewhere, h, fun body _ u hu heq => hu ?_⟩
      rwa [(Work.Adjusts.checkIn u _ _).id] at heq
    | writing out => exact ⟨_, AtStage.checkOut h id, fun body _ u hu => AtStage.checkIn hu body⟩

end Transaction

end EntityStore
