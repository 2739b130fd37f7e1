import EntityStore.Hook.Program
import EntityStore.Proofs.Transaction.Outcomes

/-!
# What is recorded for an id

While nothing is written, what a transaction has recorded for an id can be told from the operations
that counted, those that were neither refused nor dropped. A deletion leaves nothing. Otherwise the
last persist gave all fields, and the last modification of a field since then overrides it; without
a persist there are the modified fields and the id, and nothing else (`Work.Told`).

Main statements: an operation moves what is recorded for an id by `Operation.record` if it counts,
and not at all otherwise (`Work.Recording.perform`), so do all of a row (`Work.Recording.takeAll`),
and what the fold comes to is told (`Work.Follows.told`).
-/

namespace EntityStore

namespace Operation

/-- The id for which an operation is to record something. -/
def recordsFor? : Operation → Option EntityId
  | persist e | modified e _ _ => some e.id
  | delete id => some id
  | _ => none

/-- The field, with its value, that an operation is to record for an id. -/
def fieldFor? (id : EntityId) : Operation → Option (String × PropertyValue)
  | modified e field value => if e.id = id then some (field, value) else none
  | _ => none

/-- The fields that operations are to record for an id, each with the last of its values. -/
def fieldsFor (id : EntityId) (ops : List Operation) : Properties :=
  OrderedMap.ofList (ops.filterMap (fieldFor? id))

/-- What is recorded for an id after an operation that counted. -/
def record (id : EntityId) (recorded : Option Properties) : Operation → Option Properties
  | persist e => if e.id = id then some e.properties else recorded
  | modified e field value =>
    if e.id = id then some ((recorded.getD (Properties.forId id)).insert field value) else recorded
  | delete other => if other = id then none else recorded
  | _ => recorded

/-- An operation counts if it is to record something and is neither refused nor dropped. -/
def counts (run : HookRunner) : Operation → Work → Bool
  | persist e, w => (w.persist run e).1.isOk
  | modified e field value, w =>
    (w.modified run e field value).1.isOk && !w.txn.ignoreModifications && w.contains e.id
  | delete id, w => (w.delete run id).1.isOk
  | _, _ => false

/-- Of an id, operations are to record nothing but fields. -/
def OnlyFields (id : EntityId) (ops : List Operation) : Prop :=
  ∀ op ∈ ops, op.recordsFor? = some id → op.fieldFor? id ≠ none

instance (id : EntityId) (ops : List Operation) : Decidable (OnlyFields id ops) :=
  inferInstanceAs (Decidable (∀ op ∈ ops, op.recordsFor? = some id → op.fieldFor? id ≠ none))

/-- Operations that neither end a transaction, nor set off hooks, nor turn auto-commit on. -/
def Withholds : Operation → Prop
  | deleteEntity _ | commit | rollback => False
  | setAutoCommit value => value = false
  | _ => True

/-! ## Folds of what counted -/

section Folds

variable {id : EntityId} {ops : List Operation}

theorem record_of_ne {op : Operation} (h : op.recordsFor? ≠ some id)
    (recorded : Option Properties) : op.record id recorded = recorded := by
  cases op with
  | persist e | modified e _ _ | delete other =>
    exact if_neg fun heq => h (congrArg some heq)
  | _ => rfl

theorem record_of_field {op : Operation} {f : String × PropertyValue}
    (h : op.fieldFor? id = some f) (recorded : Option Properties) :
    op.record id recorded = some ((recorded.getD (Properties.forId id)).insert f.1 f.2) := by
  cases op with
  | modified e field value =>
    by_cases hid : e.id = id
    · obtain rfl : (field, value) = f := by simpa [fieldFor?, hid] using h
      exact if_pos hid
    · simp [fieldFor?, hid] at h
  | _ => cases h

theorem foldl_record_of_ne (h : ∀ op ∈ ops, op.recordsFor? ≠ some id)
    (recorded : Option Properties) : ops.foldl (record id) recorded = recorded := by
  induction ops generalizing recorded with
  | nil => rfl
  | cons op rest ih =>
    rw [List.foldl_cons, record_of_ne (h op List.mem_cons_self),
      ih fun op hop => h op (List.mem_cons_of_mem _ hop)]

/-- Fields override what was recorded before. -/
theorem foldl_record_of_fields (h : OnlyFields id ops) (p : Properties) :
    ops.foldl (record id) (some p) = some (p.merge (fieldsFor id ops)) := by
  suffices ops.foldl (record id) (some p) =
      some ((ops.filterMap (fieldFor? id)).foldl (fun p f => p.insert f.1 f.2) p) by
    rw [this]
    refine congrArg some (OrderedMap.ext_find? fun key => ?_)
    rw [OrderedMap.find?_merge, fieldsFor, OrderedMap.find?_ofList, OrderedMap.find?_foldl_insert]
  induction ops generalizing p with
  | nil => rfl
  | cons op rest ih =>
    have hop := h op List.mem_cons_self
    rw [List.foldl_cons]
    cases hfield : op.fieldFor? id with
    | none =>
      rw [record_of_ne fun heq => hop heq hfield, List.filterMap_cons_none hfield]
      exact ih (fun op hop => h op (List.mem_cons_of_mem _ hop)) p
    | some f =>
      rw [record_of_field hfield, List.filterMap_cons_some hfield, List.foldl_cons]
      exact ih (fun op hop => h op (List.mem_cons_of_mem _ hop)) _

/-- Once something is recorded, it makes no difference whether there was an entry before. -/
theorem foldl_record_getD (h : ∃ op ∈ ops, op.recordsFor? = some id)
    (recorded : Option Properties) :
    ops.foldl (record id) recorded =
      ops.foldl (record id) (some (recorded.getD (Properties.forId id))) := by
  induction ops with
  | nil => simp at h
  | cons op rest ih =>
    -- the first operation for the id makes the two alike, and those before it leave them alone
    by_cases hop : op.recordsFor? = some id
    · refine congrArg (rest.foldl (record id)) ?_
      cases op <;> simp_all [recordsFor?, record]
    · obtain ⟨other, hother, hsome⟩ := h
      rw [List.foldl_cons, List.foldl_cons, record_of_ne hop, record_of_ne hop]
      rcases List.mem_cons.1 hother with rfl | hother
      · exact absurd hsome hop
      · exact ih ⟨other, hother, hsome⟩

end Folds

end Operation

/-- What happens to a transaction from outside: one of its operations is performed, or something
happens to its store. -/
inductive Turn where
  | perform (op : Operation)
  | elsewhere (change : Store → Store)

namespace Turn

def Withholds : Turn → Prop
  | perform op => op.Withholds
  | elsewhere _ => True

def take (run : HookRunner) : Turn → Work → Work
  | perform op, w => (op.perform run w).2
  | elsewhere change, w => w.onStore change

def counted (run : HookRunner) : Turn → Work → List Operation
  | perform op, w => if op.counts run w then [op] else []
  | elsewhere _, _ => []

def takeAll (run : HookRunner) (turns : List Turn) (w : Work) : Work :=
  turns.foldl (fun w turn => turn.take run w) w

/-- The operations that count as turns are taken, in order. -/
def allCounted (run : HookRunner) : List Turn → Work → List Operation
  | [], _ => []
  | turn :: rest, w => turn.counted run w ++ allCounted run rest (turn.take run w)

end Turn

namespace Work

/-- A transaction that records changes and writes none, outside hooks. Nothing is recorded of what
it has taken away, as in every transaction that is in order (`Transaction.Consistent`). -/
structure Recording (w : Work) : Prop where
  active : w.txn.state = .active
  autoCommit : w.txn.autoCommit = false
  ensuring : w.txn.ensuring = false
  forgotten : ∀ {id}, w.txn.deleted.contains id = true → w.txn.deltas.find? id = none

/-- One unit of work comes from another by operations of which some counted. -/
structure Follows (w : Work) (counted : List Operation) (w' : Work) : Prop where
  recording : w'.Recording
  deltas : ∀ id, w'.txn.deltas.find? id =
    counted.foldl (Operation.record id) (w.txn.deltas.find? id)
  kept : ∀ {id}, w.txn.deleted.contains id = true → w'.txn.deleted.contains id = true
  deleted : ∀ {id}, .delete id ∈ counted → w'.txn.deleted.contains id = true

variable {run : HookRunner} {w w' w'' : Work} {ops later : List Operation}

theorem Recording.refl (h : w.Recording) : w.Follows [] w :=
  ⟨h, fun _ => rfl, id, fun hid => absurd hid List.not_mem_nil⟩

theorem Follows.trans (h : w.Follows ops w') (h' : w'.Follows later w'') :
    w.Follows (ops ++ later) w'' where
  recording := h'.recording
  deltas id := by rw [h'.deltas, h.deltas, List.foldl_append]
  kept hid := h'.kept (h.kept hid)
  deleted hid := (List.mem_append.1 hid).elim (fun hid => h'.kept (h.deleted hid)) h'.deleted

theorem Recording.aside (h : w.Recording) (hstate : w'.txn.state = w.txn.state)
    (hauto : w'.txn.autoCommit = false) (hensuring : w'.txn.ensuring = w.txn.ensuring)
    (hdeleted : w'.txn.deleted = w.txn.deleted) (hdeltas : w'.txn.deltas = w.txn.deltas) :
    w.Follows [] w' where
  recording :=
    ⟨hstate.trans h.active, hauto, hensuring.trans h.ensuring,
      fun hid => by rw [hdeltas]; exact h.forgotten (hdeleted ▸ hid)⟩
  deltas id := by rw [hdeltas]; rfl
  kept hid := hdeleted ▸ hid
  deleted hid := absurd hid List.not_mem_nil

theorem Recording.forgotten_insert (h : w.Recording) {e : Entity}
    (hlive : w.txn.deleted.contains e.id = false) (p : Properties) {id : EntityId}
    (hid : w.txn.deleted.contains id = true) : (w.txn.deltas.insert e.id p).find? id = none := by
  have hne : e.id ≠ id := by
    rintro rfl
    exact absurd (hlive.symm.trans hid) Bool.false_ne_true
  rw [OrderedMap.find?_insert, if_neg hne, h.forgotten hid]

theorem Recording.recordSnapshot (h : w.Recording) {e : Entity}
    (hlive : w.txn.deleted.contains e.id = false) :
    w.Follows [.persist e] (w.onTxn (·.recordSnapshot e)) where
  recording := ⟨h.active, h.autoCommit, h.ensuring, h.forgotten_insert hlive _⟩
  deltas id := OrderedMap.find?_insert _ _ _ _
  kept := id
  deleted hid := by simp at hid

theorem Recording.takeDown (h : w.Recording) {e : Entity}
    (hlive : w.txn.deleted.contains e.id = false) (field : String) (value : PropertyValue) :
    w.Follows [.modified e field value] (w.takeDown e field value) where
  recording := ⟨h.active, h.autoCommit, h.ensuring, h.forgotten_insert hlive _⟩
  deltas id := by
    refine (OrderedMap.find?_insert _ _ _ _).trans ?_
    by_cases heq : e.id = id <;> simp [Operation.record, heq]
  kept := id
  deleted hid := by simp at hid

theorem Recording.recordDeletion (h : w.Recording) (id : EntityId) :
    w.Follows [.delete id]
      ((w.onTxn (·.recordDeletion id)).onStore (·.onBackend Backend.noteModification)) where
  recording := by
    refine ⟨h.active, h.autoCommit, h.ensuring, fun {other} hother => ?_⟩
    simp only [onStore, onTxn, Transaction.recordDeletion, OrderedMap.contains_add, Bool.or_eq_true,
      decide_eq_true_iff] at hother
    refine (OrderedMap.find?_erase _ _ _).trans ?_
    by_cases heq : id = other
    · rw [if_pos heq]
    · rw [if_neg heq, h.forgotten (hother.resolve_left heq)]
  deltas other := OrderedMap.find?_erase _ _ _
  kept hother := by
    simp [onStore, onTxn, Transaction.recordDeletion, OrderedMap.contains_add, hother]
  deleted hother := by
    simp only [List.mem_singleton, Operation.delete.injEq] at hother
    simp [onStore, onTxn, Transaction.recordDeletion, OrderedMap.contains_add, hother]

/-- To take away an id once more changes nothing, for nothing is recorded of it. -/
theorem Recording.deletedBefore (h : w.Recording) {id : EntityId}
    (hdeleted : w.txn.deleted.contains id = true) : w.Follows [.delete id] w where
  recording := h
  deltas other := by
    by_cases heq : id = other
    · subst heq
      simp [Operation.record, h.forgotten hdeleted]
    · simp [Operation.record, heq]
  kept hother := hother
  deleted hother := by
    simp only [List.mem_singleton, Operation.delete.injEq] at hother
    rwa [hother]

theorem Recording.unfinished (h : w.Recording) : w.txn.state.isFinished = false := by
  rw [h.active]
  rfl

theorem Recording.withheld (h : w.Recording) : w.writesThrough = false :=
  writesThrough_of_manual h.autoCommit

/-- An operation moves what is recorded if it counts, and not at all otherwise. -/
theorem Recording.perform (h : w.Recording) (run : HookRunner) {op : Operation}
    (hop : op.Withholds) : w.Follows (Turn.counted run (.perform op) w) (op.perform run w).2 := by
  cases op with
  | persist e =>
    simp only [Turn.counted, Operation.counts, Operation.perform,
      persist_withheld h.unfinished h.withheld]
    split
    · exact h.refl
    · rename_i hlive
      exact h.recordSnapshot (Bool.eq_false_iff.2 hlive)
  | modified e field value =>
    simp only [Turn.counted, Operation.counts, Operation.perform,
      modified_withheld h.unfinished h.withheld]
    cases hignores : w.txn.ignoreModifications with
    | true => exact h.refl
    | false =>
      cases hsees : w.contains e.id with
      | false => exact h.refl
      | true =>
        rw [contains, Bool.and_eq_true, Bool.not_eq_true'] at hsees
        exact h.takeDown hsees.1 field value
  | delete id =>
    simp only [Turn.counted, Operation.counts, Operation.perform,
      delete_withheld h.unfinished h.withheld, h.ensuring]
    split
    · rename_i hdeleted
      exact h.deletedBefore hdeleted
    · exact h.recordDeletion id
  | deleteEntity _ | commit | rollback => exact hop.elim
  | afterCommit c =>
    rw [Operation.perform, afterCommit, if_neg (by rw [h.autoCommit]; exact Bool.false_ne_true)]
    exact h.aside rfl h.autoCommit rfl rfl rfl
  | setAutoCommit value => exact h.aside rfl hop rfl rfl rfl
  | _ => exact h.aside rfl h.autoCommit rfl rfl rfl

theorem Recording.take (h : w.Recording) (run : HookRunner) {turn : Turn}
    (hturn : turn.Withholds) : w.Follows (turn.counted run w) (turn.take run w) := by
  cases turn with
  | perform op => exact h.perform run hturn
  | elsewhere change => exact h.aside rfl h.autoCommit rfl rfl rfl

theorem Recording.takeAll (h : w.Recording) (run : HookRunner) {turns : List Turn}
    (hturns : ∀ turn ∈ turns, turn.Withholds) :
    w.Follows (Turn.allCounted run turns w) (Turn.takeAll run turns w) := by
  induction turns generalizing w with
  | nil => exact h.refl
  | cons turn rest ih =>
    have hstep := h.take run (hturns turn List.mem_cons_self)
    exact hstep.trans (ih hstep.recording fun t ht => hturns t (List.mem_cons_of_mem _ ht))

/-- What operations that counted have left recorded for an id: nothing if it was taken away, else
the last snapshot with the fields that were modified since then, else the fields that were modified
beside the id. A transaction that was recording before keeps what it had of an id until then. -/
structure Told (w : Work) (counted : List Operation) (w' : Work) (id : EntityId) : Prop where
  deleted : w.txn.deleted.contains id = true ∨ .delete id ∈ counted →
    w'.txn.deltas.find? id = none
  untouched : (∀ op ∈ counted, op.recordsFor? ≠ some id) →
    w'.txn.deltas.find? id = w.txn.deltas.find? id
  persisted : ∀ {before later : List Operation} {e : Entity},
    counted = before ++ .persist e :: later → e.id = id → Operation.OnlyFields id later →
    w'.txn.deltas.find? id = some (e.properties.merge (Operation.fieldsFor id later))
  modified : Operation.OnlyFields id counted → (∃ op ∈ counted, op.recordsFor? = some id) →
    w'.txn.deltas.find? id = some (((w.txn.deltas.find? id).getD (Properties.forId id)).merge
      (Operation.fieldsFor id counted))

theorem Follows.told (h : w.Follows ops w') (id : EntityId) : w.Told ops w' id where
  deleted hid := h.recording.forgotten (hid.elim h.kept h.deleted)
  untouched hops := by rw [h.deltas, Operation.foldl_record_of_ne hops]
  persisted hops hid hfields := by
    rw [h.deltas, hops, List.foldl_append, List.foldl_cons, Operation.record, if_pos hid]
    exact Operation.foldl_record_of_fields hfields _
  modified hfields hsome := by
    rw [h.deltas, Operation.foldl_record_getD hsome]
    exact Operation.foldl_record_of_fields hfields _

end Work

end EntityStore
