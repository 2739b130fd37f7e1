import EntityStore.Proofs.Repair.Trimming
import EntityStore.Proofs.Transaction.Overlay

/-!
# What stays known of entities and of their records

Something is known of every entity, and of each entity to be put something about what is committed
under its id and what is recorded of it. Whatever survives single changes of fields survives repairs
and writes as well (`kept_upholds`), and what is known of a working set when it is written passes on
to the store.
-/

namespace EntityStore

open Repair

/-- No callback is admitted. -/
def Callback.Barred (_ : Callback) : Prop := False

/-- Something is known of every committed entity. -/
def Store.Holds (P : Entity → Prop) (s : Store) : Prop :=
  ∀ id e, s.backend.table.find? id = some e → P e

namespace Work

/-- Something is known of all entities, of those to be put something about the committed one and the
recorded fields, and something of the callbacks that wait. Between operations no entity is being
checked. -/
structure Kept (P : Entity → Prop) (Rel : Option Entity → Entity → Properties → Prop)
    (calls : Callback → Prop) (w : Work) : Prop where
  pending : ∀ {id e}, w.txn.modified.find? id = some e →
    ∃ d, w.txn.deltas.find? id = some d ∧ P e ∧ Rel (w.store.backend.table.find? id) e d
  unrecorded : ∀ {id}, w.txn.modified.find? id = none → w.txn.deltas.find? id = none
  committed : ∀ {id e}, w.store.backend.table.find? id = some e → P e
  apart : w.txn.Apart
  checking : w.txn.checking = none
  callbacks : ∀ c ∈ w.txn.callbacks, calls c

/-- What survives the changes that are made to entities and recorded of them. The last part is about
repairs that are not recorded, as far as there are any. -/
structure Accounts (P : Entity → Prop) (Rel : Option Entity → Entity → Properties → Prop)
    (mute : Prop) : Prop where
  tends : ∀ {e}, P e → tendsItself e = true
  drops : ∀ {e field e'}, P e → Drops e field e' → P e'
  fresh : ∀ {e}, P e → Rel (some e) e (Properties.forId e.id)
  noted : ∀ {b e field e' d}, P e → Drops e field e' → Rel b e d → Rel b e' (d.insert field none)
  muted : mute → ∀ {b e field e' d}, P e → Drops e field e' → Rel b e d → Rel b e' d

variable {P : Entity → Prop} {Rel : Option Entity → Entity → Properties → Prop}
  {calls : Callback → Prop} {mute : Prop} {run : HookRunner} {w w' : Work} {id : EntityId}
  {e e' : Entity} {d : Properties} {fields : List String} {b : Option Entity}

theorem Accounts.trims (h : Accounts P Rel mute) (he : P e) (htrims : Trims e fields e') : P e' :=
  htrims.preserves h.drops he

theorem Accounts.trims_recorded (h : Accounts P Rel mute) (htrims : Trims e fields e') (he : P e)
    (hrel : Rel b e d) : Rel b e' (nulled d fields) := by
  induction htrims generalizing d with
  | refl => exact hrel
  | head hdrop _ ih =>
    exact ih (h.drops he hdrop) (h.noted he hdrop hrel)

theorem Accounts.trims_muted (h : Accounts P Rel mute) (hmute : mute) (htrims : Trims e fields e')
    (he : P e) (hrel : Rel b e d) : Rel b e' d := by
  induction htrims with
  | refl => exact hrel
  | head hdrop _ ih => exact ih (h.drops he hdrop) (h.muted hmute he hdrop hrel)

namespace Kept

theorem mono {P' : Entity → Prop} {Rel' : Option Entity → Entity → Properties → Prop}
    (hw : w.Kept P Rel calls) (hP : ∀ {e}, P e → P' e)
    (hRel : ∀ {b e d}, Rel b e d → Rel' b e d) : w.Kept P' Rel' calls where
  pending hf := by
    obtain ⟨d, hd, he, hrel⟩ := hw.pending hf
    exact ⟨d, hd, hP he, hRel hrel⟩
  unrecorded := hw.unrecorded
  committed hf := hP (hw.committed hf)
  apart := hw.apart
  checking := hw.checking
  callbacks := hw.callbacks

theorem sound (hw : w.Kept P Rel calls) (h : Accounts P Rel mute) : w.Sound where
  pending hf := by
    obtain ⟨_, -, he, -⟩ := hw.pending hf
    exact h.tends he
  committed hf := h.tends (hw.committed hf)
  apart hd := hw.apart _ hd

theorem of_eq (hw : w.Kept P Rel calls) (hmodified : w'.txn.modified = w.txn.modified)
    (hdeleted : w'.txn.deleted = w.txn.deleted) (hdeltas : w'.txn.deltas = w.txn.deltas)
    (hchecking : w'.txn.checking = none) (hcallbacks : w'.txn.callbacks = w.txn.callbacks)
    (htable : w'.store.backend.table = w.store.backend.table) : w'.Kept P Rel calls where
  pending hf := by
    rw [hmodified] at hf
    rw [hdeltas, htable]
    exact hw.pending hf
  unrecorded hf := by
    rw [hmodified] at hf
    rw [hdeltas]
    exact hw.unrecorded hf
  committed hf := hw.committed (htable ▸ hf)
  apart := fun id hd => by
    rw [hmodified]
    exact hw.apart id (hdeleted ▸ hd)
  checking := hchecking
  callbacks := hcallbacks ▸ hw.callbacks

/-- One more entity is put. -/
theorem put (hw : w.Kept P Rel calls) (he : P e) (hrel : Rel (w.store.backend.table.find? e.id) e d)
    (hd : w.txn.deleted.contains e.id = false) (hmodified : w'.txn.modified = w.txn.modified.add e)
    (hdeltas : ∀ id, w'.txn.deltas.find? id =
      if e.id = id then some d else w.txn.deltas.find? id)
    (hdeleted : w'.txn.deleted = w.txn.deleted) (hchecking : w'.txn.checking = none)
    (hcallbacks : w'.txn.callbacks = w.txn.callbacks)
    (htable : w'.store.backend.table = w.store.backend.table) : w'.Kept P Rel calls where
  pending {id x} hf := by
    rw [hmodified, Index.find?_add] at hf
    rw [hdeltas, htable]
    split at hf
    · rename_i hid
      cases hf
      exact ⟨d, if_pos hid, he, hid ▸ hrel⟩
    · rename_i hid
      rw [if_neg hid]
      exact hw.pending hf
  unrecorded {id} hf := by
    rw [hmodified, Index.find?_add] at hf
    rw [hdeltas]
    split at hf
    · cases hf
    · rename_i hid
      rw [if_neg hid]
      exact hw.unrecorded hf
  committed hf := hw.committed (htable ▸ hf)
  apart := hw.apart.put hd hmodified hdeleted
  checking := hchecking
  callbacks := hcallbacks ▸ hw.callbacks

/-- One entity is taken away, and what was recorded of it. -/
theorem strike (hw : w.Kept P Rel calls) (id : EntityId)
    (htxn : w'.txn = { w.txn.recordDeletion id with checking := none })
    (htable : w'.store.backend.table = w.store.backend.table) : w'.Kept P Rel calls where
  pending hf := by
    simp only [htxn, Transaction.recordDeletion, Index.find?_remove, OrderedMap.find?_erase] at hf ⊢
    rw [htable]
    split at hf
    · cases hf
    · rename_i hid
      rw [if_neg hid]
      exact hw.pending hf
  unrecorded hf := by
    simp only [htxn, Transaction.recordDeletion, Index.find?_remove, OrderedMap.find?_erase] at hf ⊢
    split
    · rfl
    · rename_i hid
      rw [if_neg hid] at hf
      exact hw.unrecorded hf
  committed hf := hw.committed (htable ▸ hf)
  apart := by
    rw [htxn]
    exact hw.apart.recordDeletion id
  checking := by rw [htxn]
  callbacks := by
    rw [htxn]
    exact hw.callbacks

/-- What is known of an entity that is seen, and of the fields to which further ones are added. -/
theorem candidate (hw : w.Kept P Rel calls)
    (hfresh : ∀ {e}, P e → Rel (some e) e (Properties.forId e.id))
    (hcand : w.candidate? id = some e) :
    P e ∧ Rel (w.store.backend.table.find? id) e (w.recorded id) := by
  cases hmodified : w.txn.modified.find? id with
  | some x =>
    rw [candidate?, hmodified] at hcand
    cases hcand
    obtain ⟨d, hd, he, hrel⟩ := hw.pending hmodified
    rw [recorded, hd]
    exact ⟨he, hrel⟩
  | none =>
    rw [candidate?, hmodified, Option.none_or] at hcand
    have he := hw.committed hcand
    rw [recorded, hw.unrecorded hmodified, hcand]
    obtain rfl := Index.id_of_find? hcand
    exact ⟨he, hfresh he⟩

/-! ## Checks and passes -/

/-- What is known survives a check. -/
theorem treated (hw : w.Kept P Rel calls) (h : Accounts P Rel mute)
    (hmute : w.txn.ignoreModifications = true → mute) (hcand : w.candidate? id = some e)
    (hd : w.txn.deleted.contains id = false) {result : Result Unit}
    (ht : w.Treated id e (result, w')) : w'.Kept P Rel calls := by
  obtain ⟨he, hrel⟩ := hw.candidate h.fresh hcand
  obtain rfl := id_of_candidate? hcand
  cases ht with
  | left htxn hcalm =>
    exact hw.of_eq (by rw [htxn]) (by rw [htxn]) (by rw [htxn]) (by rw [htxn]) (by rw [htxn])
      hcalm.table
  | trimmed _ htrims htxn hcalm =>
    have hid := htrims.id
    refine hw.put (h.trims he htrims) (hid ▸ h.trims_recorded htrims he hrel) (hid ▸ hd)
      (by rw [htxn]) (fun i => ?_) (by rw [htxn]) (by rw [htxn]) (by rw [htxn]) hcalm.table
    rw [htxn, hid]
    exact OrderedMap.find?_insert ..
  | muted hflag htrims hput htxn hcalm =>
    have hid := htrims.id
    obtain ⟨d, hdeltas⟩ : ∃ d, w.txn.deltas.find? e.id = some d := by
      obtain ⟨x, hx⟩ := Index.contains_iff_find?.1 hput
      obtain ⟨d, hdeltas, -⟩ := hw.pending hx
      exact ⟨d, hdeltas⟩
    rw [recorded, hdeltas] at hrel
    refine hw.put (h.trims he htrims) (hid ▸ h.trims_muted (hmute hflag) htrims he hrel) (hid ▸ hd)
      (by rw [htxn]) (fun i => ?_) (by rw [htxn]) (by rw [htxn]) (by rw [htxn]) hcalm.table
    rw [htxn, hid]
    split
    · rename_i heq
      rw [← heq]
      exact hdeltas
    · rfl
  | struck htxn hcalm => exact hw.strike e.id htxn hcalm.table
  | refused _ htxn hcalm =>
    exact hw.of_eq (by rw [htxn]) (by rw [htxn]) (by rw [htxn]) (by rw [htxn]) (by rw [htxn])
      hcalm.table

end Kept

theorem Treated.calm {result : Result Unit} (ht : w.Treated id e (result, w')) :
    w.store.Calm w'.store := by
  cases ht with
  | left _ h => exact h
  | trimmed _ _ _ h => exact h
  | muted _ _ _ _ h => exact h
  | struck _ h => exact h
  | refused _ _ h => exact h

theorem Treated.settings {result : Result Unit} (ht : w.Treated id e (result, w')) :
    w'.txn.state = w.txn.state ∧ w'.txn.ensuring = w.txn.ensuring ∧ w.SameSettings w' := by
  cases ht with
  | left h _ => rw [h]; exact ⟨rfl, rfl, by rw [h], by rw [h]⟩
  | trimmed _ _ h _ => rw [h]; exact ⟨rfl, rfl, by rw [h], by rw [h]⟩
  | muted _ _ _ h _ => rw [h]; exact ⟨rfl, rfl, by rw [h], by rw [h]⟩
  | struck h _ => rw [h]; exact ⟨rfl, rfl, by rw [h]; rfl, by rw [h]; rfl⟩
  | refused _ h _ => rw [h]; exact ⟨rfl, rfl, by rw [h], by rw [h]⟩

/-- What is known during the passes of a repair. -/
structure Tending (P : Entity → Prop) (Rel : Option Entity → Entity → Properties → Prop)
    (calls : Callback → Prop) (mute : Prop) (w : Work) : Prop where
  kept : w.Kept P Rel calls
  recording : w.txn.state.ensureRecording = .ok ()
  mutes : w.txn.ignoreModifications = true → mute

theorem Tending.of_eq (h : w.Tending P Rel calls mute) (hk : w'.Kept P Rel calls)
    (hstate : w'.txn.state = w.txn.state) (hsettings : w.SameSettings w') :
    w'.Tending P Rel calls mute :=
  ⟨hk, hstate ▸ h.recording, fun hflag => h.mutes (hsettings.ignoring ▸ hflag)⟩

theorem Tending.beginPass (h : w.Tending P Rel calls mute) : w.beginPass.Tending P Rel calls mute :=
  h.of_eq (h.kept.of_eq rfl rfl rfl h.kept.checking rfl rfl) rfl ⟨rfl, rfl⟩

theorem Tending.endPass (h : w.Tending P Rel calls mute) : w.endPass.Tending P Rel calls mute :=
  h.of_eq (h.kept.of_eq rfl rfl rfl h.kept.checking rfl rfl) rfl ⟨rfl, rfl⟩

theorem Tending.count (h : w.Tending P Rel calls mute) (counter : Statistics → Statistics) :
    (w.count counter).Tending P Rel calls mute :=
  h.of_eq (h.kept.of_eq rfl rfl rfl h.kept.checking rfl rfl) rfl ⟨rfl, rfl⟩

/-- What a check of what is due in a pass comes to. -/
theorem Tending.checkEntity (h : Accounts P Rel mute) (hrun : Honours run)
    (hw : w.Tending P Rel calls mute) (hensuring : w.txn.ensuring = true)
    (hdue : w.txn.modified.contains id = true ∨ w.txn.deleted.contains id = false) :
    (w.checkEntity run id).2.Tending P Rel calls mute ∧
      (w.checkEntity run id).2.txn.ensuring = true ∧
      w.store.Calm (w.checkEntity run id).2.store := by
  have hd : w.txn.deleted.contains id = false := hdue.elim (hw.kept.sound h).alive fun hd => hd
  cases hcand : w.candidate? id with
  | none =>
    rw [Work.checkEntity, hcand]
    exact ⟨hw, hensuring, .refl _⟩
  | some e =>
    have htreated := checkEntity_treated hrun ⟨hw.recording, hensuring⟩
      ((hw.kept.sound h).candidate hcand) hcand hd
    obtain ⟨hstate, hpass, hsettings⟩ := htreated.settings
    exact ⟨hw.of_eq (hw.kept.treated h hw.mutes hcand hd htreated) hstate hsettings,
      hpass.trans hensuring, htreated.calm⟩

theorem tending_passRelation (h : Accounts P Rel mute) (hrun : Honours run) :
    PassRelation run fun w w' => w.Tending P Rel calls mute ∧ w.txn.ensuring = true →
      w'.Tending P Rel calls mute ∧ w'.txn.ensuring = true ∧ w.store.Calm w'.store where
  refl w hw := ⟨hw.1, hw.2, .refl _⟩
  trans hu hv hw := by
    obtain ⟨htending, hensuring, hcalm⟩ := hu hw
    obtain ⟨htending', hensuring', hcalm'⟩ := hv ⟨htending, hensuring⟩
    exact ⟨htending', hensuring', hcalm.trans hcalm'⟩
  check id w hdue hw := hw.1.checkEntity h hrun hw.2 hdue
  query w hw := ⟨hw.1.count _, hw.2, .countQuery _⟩

/-- What is known survives a repair, which moves nothing. -/
theorem Tending.ensureIntegrity (h : Accounts P Rel mute) (hrun : Honours run)
    (hw : w.Tending P Rel calls mute) :
    (Work.ensureIntegrity run w).2.Kept P Rel calls ∧
      w.store.Still (Work.ensureIntegrity run w).2.store := by
  have htending : (Work.ensureIntegrity run w).2.Tending P Rel calls mute ∧
      w.store.Still (Work.ensureIntegrity run w).2.store := by
    refine repeatPasses_preserves (I := fun u => u.Tending P Rel calls mute ∧ w.store.Still u.store)
      (fun u hu => ?_) (fun u hu => ?_) ⟨hw, .refl _⟩
    · obtain ⟨hpass, -, hcalm⟩ :=
        (tending_passRelation h hrun).integrityPass _ ⟨hu.1.beginPass, rfl⟩
      exact ⟨hpass.endPass, hu.2.trans (hcalm.still.trans (Store.Quiet.count _ _).still)⟩
    · exact ⟨hu.1.count _, hu.2.trans (Store.Quiet.count _ _).still⟩
  exact ⟨htending.1.kept, htending.2⟩

end Work

/-! ## Writes -/

/-- What holds of a store as long as working sets of which something is known are written, and
callbacks of which something is known run. Where there are any of these, what is known of an entity
to be put does not depend on the committed one. -/
structure Store.Carries (P : Entity → Prop) (Rel : Option Entity → Entity → Properties → Prop)
    (calls : Callback → Prop) (J : Store → Prop) : Prop where
  still : ∀ {s s' : Store}, J s → s.Still s' → J s'
  rejected : ∀ {w : Work} {b err}, J w.store →
    w.store.backend.update w.txn.batch = (.error err, b) → J (w.withBackend b).store
  applied : ∀ {w : Work} {b}, w.Kept P Rel calls → J w.store →
    w.store.backend.update w.txn.batch = (.ok (), b) →
    J ((w.withBackend b).store.publish w.txn.changeSet)
  callback : ∀ {c} {s : Store}, calls c → s.Holds P → J s → (c.run s).Holds P ∧ J (c.run s)
  detached : ∀ {c}, calls c → ∀ {b b' e d}, Rel b e d → Rel b' e d

namespace Store.Carries

variable {P : Entity → Prop} {Rel : Option Entity → Entity → Properties → Prop}
  {calls : Callback → Prop} {J : Store → Prop} {cs : List Callback} {s : Store}

theorem trivial (P : Entity → Prop) (Rel : Option Entity → Entity → Properties → Prop) :
    Store.Carries P Rel Callback.Barred fun _ => True :=
  ⟨fun _ _ => ⟨⟩, fun _ _ => ⟨⟩, fun _ _ _ => ⟨⟩, False.elim, False.elim⟩

theorem of_unmoved (hunmoved : ∀ {s s' : Store}, J s → s.Unmoved s' → J s')
    (hdelivers : ∀ {w : Work} {s' : Store}, w.Kept P Rel Callback.Barred → J w.store →
      w.store.Delivers w.txn.batch w.txn.changeSet s' → J s') :
    Store.Carries P Rel Callback.Barred J where
  still hs h := hunmoved hs h.toUnmoved
  rejected hw h := hunmoved hw (Work.unmoved_rejected (Backend.update_error h))
  applied hk hw h := hdelivers hk hw (Work.delivers_applied (Backend.update_ok h))
  callback := False.elim
  detached := False.elim

theorem runAll (h : Store.Carries P Rel calls J) (hcs : ∀ c ∈ cs, calls c) (hs : s.Holds P)
    (hj : J s) : (Callback.runAll cs s).Holds P ∧ J (Callback.runAll cs s) := by
  induction cs generalizing s with
  | nil => exact ⟨hs, hj⟩
  | cons c rest ih =>
    obtain ⟨hs', hj'⟩ := h.callback (hcs c List.mem_cons_self) hs hj
    exact ih (fun c' hc' => hcs c' (List.mem_cons_of_mem c hc')) hs' hj'

theorem rel_runAll (h : Store.Carries P Rel calls J) (hcs : ∀ c ∈ cs, calls c) {id : EntityId}
    {e : Entity} {d : Properties} (hrel : Rel (s.backend.table.find? id) e d) :
    Rel ((Callback.runAll cs s).backend.table.find? id) e d := by
  cases cs with
  | nil => exact hrel
  | cons c rest => exact h.detached (hcs c List.mem_cons_self) hrel

end Store.Carries

namespace Operation

/-- An operation brings in entities and callbacks of which something is known, and records what is
true of them. -/
def Fits (P : Entity → Prop) (Rel : Option Entity → Entity → Properties → Prop)
    (calls : Callback → Prop) (w : Work) : Operation → Prop
  | .persist e => P e ∧ ∀ b, Rel b e e.properties
  | .modified e field value => P e ∧ ∀ b c, w.get e.id = .ok c → Rel b c (w.recorded e.id) →
      Rel b e ((w.recorded e.id).insert field value)
  | .deleteEntity e => tendsItself e = true
  | .afterCommit c => calls c
  | _ => True

/-- An operation may write at a time when references are repaired but modifications ignored. -/
def Mutes (w : Work) (op : Operation) : Prop :=
  op.Hands w.txn ∧ w.txn.ensureIntegrity = true ∧ w.txn.ignoreModifications = true

/-- Operations are permitted only where they keep what is known. Whoever may delete an entity may
delete its id. -/
structure Respects (P : Entity → Prop) (Rel : Option Entity → Entity → Properties → Prop)
    (calls : Callback → Prop) (mute : Prop) (may : Work → Operation → Prop) : Prop where
  fits : ∀ {w op}, w.Kept P Rel calls → may w op → op.Fits P Rel calls w
  mutes : ∀ {w op}, may w op → op.Mutes w → mute
  delete : ∀ {w e}, may w (.deleteEntity e) → may w (.delete e.id)

/-- An operation brings in entities and callbacks of some kinds only. -/
def Brings (P : Entity → Prop) (calls : Callback → Prop) : Operation → Prop
  | .persist e | .modified e _ _ | .deleteEntity e => P e
  | .afterCommit c => calls c
  | _ => True

/-- Entities of a kind that looks after itself may be brought in where nothing is said of what is
recorded. -/
theorem respects_brings {P : Entity → Prop} (hP : ∀ {e}, P e → tendsItself e = true)
    (calls : Callback → Prop) :
    Respects P (fun _ _ _ => True) calls True fun _ op => op.Brings P calls where
  fits {w op} _ h := by
    cases op with
    | persist e => exact ⟨h, fun _ => trivial⟩
    | modified e field value => exact ⟨h, fun _ _ _ _ => trivial⟩
    | deleteEntity e => exact hP h
    | afterCommit c => exact h
    | _ => trivial
  mutes _ _ := trivial
  delete _ := trivial

end Operation

/-- A callback that leaves a store of entities of some kind one. -/
def Callback.Preserves (P : Entity → Prop) (c : Callback) : Prop :=
  ∀ s : Store, s.Holds P → (c.run s).Holds P

theorem Store.carries_preserves (P : Entity → Prop) :
    Store.Carries P (fun _ _ _ => True) (Callback.Preserves P) fun _ => True where
  still _ _ := trivial
  rejected _ _ := trivial
  applied _ _ _ := trivial
  callback hc hs _ := ⟨hc _ hs, trivial⟩
  detached _ := fun _ => trivial

namespace Work

variable {P : Entity → Prop} {Rel : Option Entity → Entity → Properties → Prop}
  {calls : Callback → Prop} {mute : Prop} {run : HookRunner} {w w' : Work} {id : EntityId}
  {e : Entity} {J : Store → Prop}

/-- What is known of a working set that is written passes on to the committed entities. -/
theorem kept_settle (hJ : Store.Carries P Rel calls J) (hw : w.Kept P Rel calls) (hs : J w.store)
    {b : Backend} (h : w.store.backend.update w.txn.batch = (.ok (), b)) :
    (w.withBackend b).settle.Kept P Rel calls ∧ J (w.withBackend b).settle.store := by
  have hholds : ((w.withBackend b).store.publish w.txn.changeSet).Holds P := by
    intro id e hf
    have htable : b.table = w.writtenTable := by
      rw [Backend.table, Backend.update_ok h]
      rfl
    change b.table.find? id = some e at hf
    rw [htable] at hf
    refine holds_of_writtenTable (fun i x hx => ?_) (fun i x hx => hw.committed hx) hf
    obtain ⟨_, -, he, -⟩ := hw.pending hx
    exact he
  obtain ⟨hcalled, hj⟩ := hJ.runAll hw.callbacks hholds (hJ.applied hw hs h)
  refine ⟨⟨fun hf => ?_, fun _ => rfl, fun hf => hcalled _ _ hf, .of_empty rfl, hw.checking,
    fun c hc => by cases hc⟩, ?_⟩
  · simp [Work.settle, Transaction.clearPending, onTxn] at hf
  · rw [store_settle]
    exact hJ.still hj (Store.Quiet.count _ _).still

theorem kept_applyPending (hJ : Store.Carries P Rel calls J) (hw : w.Kept P Rel calls)
    (hs : J w.store) : w.applyPending.2.Kept P Rel calls ∧ J w.applyPending.2.store := by
  unfold applyPending
  split
  · rename_i err b h
    have hb := Backend.update_error h
    refine ⟨hw.of_eq rfl rfl rfl hw.checking rfl ?_, hJ.rejected hs h⟩
    exact (unmoved_rejected hb).table
  · rename_i b h
    exact kept_settle hJ hw hs h

theorem kept_writePending (h : Accounts P Rel mute) (hJ : Store.Carries P Rel calls J)
    (hrun : Honours run) (hw : w.Kept P Rel calls) (hs : J w.store)
    (hopen : w.txn.state.isFinished = false)
    (hmute : w.txn.ensureIntegrity = true → w.txn.ignoreModifications = true → mute) :
    (w.writePending run).2.Kept P Rel calls ∧ J (w.writePending run).2.store := by
  rcases w.writePending_cases run with ⟨hflag, err, u, hu, heq⟩ | ⟨hflag, u, hu, heq⟩ | ⟨-, heq⟩
  all_goals rw [heq]
  · have hrepair := Tending.ensureIntegrity h hrun ⟨hw, ensureRecording_ok_iff.2 hopen, hmute hflag⟩
    rw [hu] at hrepair
    exact ⟨hrepair.1, hJ.still hs hrepair.2⟩
  · have hrepair := Tending.ensureIntegrity h hrun ⟨hw, ensureRecording_ok_iff.2 hopen, hmute hflag⟩
    rw [hu] at hrepair
    exact kept_applyPending hJ hrepair.1 (hJ.still hs hrepair.2)
  · exact kept_applyPending hJ hw hs

/-- A check would take out what can be read. -/
theorem candidate?_of_get (h : w.get id = .ok e) : w.candidate? id = some e := by
  unfold get at h
  split at h
  · cases h
  · split at h
    · rename_i hput
      cases h
      rw [candidate?, hput, Option.some_or]
    · rename_i hput
      rw [candidate?, hput, Option.none_or]
      unfold Backend.get Index.get at h
      split at h
      · rename_i hcommitted
        cases h
        exact hcommitted
      · cases h

theorem Kept.get (hw : w.Kept P Rel calls) (hsees : w.contains id = true) :
    ∃ c, w.get id = .ok c := by
  rw [contains_eq_overlay ⟨hw.apart, .inl hw.checking⟩, Option.isSome_iff_exists] at hsees
  obtain ⟨c, hc⟩ := hsees
  exact ⟨c, by rw [get_eq_overlay hw.apart, hc]⟩

theorem Kept.of_get (hw : w.Kept P Rel calls) (h : w.get id = .ok e) : P e := by
  rcases Option.or_eq_some_iff.1 (candidate?_of_get h) with hput | ⟨-, hcommitted⟩
  · obtain ⟨_, -, he, -⟩ := hw.pending hput
    exact he
  · exact hw.committed hcommitted

/-- What is known survives every permitted operation. -/
theorem kept_upholds {may : Work → Operation → Prop} (h : Accounts P Rel mute)
    (hJ : Store.Carries P Rel calls J) (hmay : Operation.Respects P Rel calls mute may)
    (hrun : Honours run) :
    Upholds run may fun w => w.Kept P Rel calls ∧ J w.store where
  same hw halike := ⟨hw.1.of_eq halike.modified halike.deleted halike.deltas
    (halike.checking.trans hw.1.checking) halike.callbacks halike.store.table,
    hJ.still hw.2 halike.store⟩
  snapshot {w e} hw hop hd := by
    obtain ⟨he, hrel⟩ := hmay.fits hw.1 hop
    refine ⟨hw.1.put he (hrel _) hd rfl (fun id => ?_) rfl hw.1.checking rfl rfl, hw.2⟩
    exact OrderedMap.find?_insert ..
  field {w e field value} hw hop _ hsees := by
    obtain ⟨he, hrecords⟩ := hmay.fits hw.1 hop
    obtain ⟨c, hget⟩ := hw.1.get hsees
    obtain ⟨-, hrel⟩ := hw.1.candidate h.fresh (candidate?_of_get hget)
    refine ⟨hw.1.put he (hrecords _ c hget hrel) (not_deleted_of_contains hsees) rfl
      (fun id => ?_) rfl hw.1.checking rfl rfl, hJ.still hw.2 (w.calm_takeDown _ _ _).still⟩
    exact OrderedMap.find?_insert ..
  deletion {w} id hw := by
    refine ⟨hw.1.strike id ?_ rfl, hJ.still hw.2 (Store.Quiet.noteModification _).still⟩
    rw [← hw.1.checking]
    rfl
  hook {w e} hw hop := by
    rw [hrun.delete e w (hmay.fits hw.1 hop)]
    exact ⟨hw, hmay.delete hop⟩
  write hop hands hsettings hopen hu :=
    kept_writePending h hJ hrun hu.1 hu.2 hopen fun hflag hignores =>
      hmay.mutes hop ⟨hands, hsettings.repairing ▸ hflag, hsettings.ignoring ▸ hignores⟩
  clear {w} hw := by
    refine ⟨⟨fun hf => ?_, fun _ => rfl, hw.1.committed, .of_empty rfl, hw.1.checking,
      fun c hc => by cases hc⟩, hw.2⟩
    simp [Transaction.clearPending, onTxn] at hf
  runCallbacks {w} hw := by
    obtain ⟨hholds, hj⟩ := hJ.runAll hw.1.callbacks (fun _ _ hf => hw.1.committed hf) hw.2
    refine ⟨⟨fun hf => ?_, hw.1.unrecorded, fun hf => hholds _ _ hf, hw.1.apart, hw.1.checking,
      fun c hc => by cases hc⟩, hj⟩
    obtain ⟨d, hd, he, hrel⟩ := hw.1.pending hf
    exact ⟨d, hd, he, hJ.rel_runAll hw.1.callbacks hrel⟩
  afterCommit {w c} hw hop := by
    have hcalls : calls c := hmay.fits hw.1 hop
    rw [Work.afterCommit]
    split
    · obtain ⟨hholds, hj⟩ := hJ.callback hcalls (fun _ _ hf => hw.1.committed hf) hw.2
      refine ⟨⟨fun hf => ?_, hw.1.unrecorded, fun hf => hholds _ _ hf, hw.1.apart, hw.1.checking,
        hw.1.callbacks⟩, hj⟩
      obtain ⟨d, hd, he, hrel⟩ := hw.1.pending hf
      exact ⟨d, hd, he, hJ.detached hcalls hrel⟩
    · refine ⟨⟨hw.1.pending, hw.1.unrecorded, hw.1.committed, hw.1.apart, hw.1.checking,
        fun c' hc' => ?_⟩, hw.2⟩
      rcases List.mem_append.1 hc' with hc' | hc'
      · exact hw.1.callbacks c' hc'
      · exact List.mem_singleton.1 hc' ▸ hcalls

end Work

end EntityStore
