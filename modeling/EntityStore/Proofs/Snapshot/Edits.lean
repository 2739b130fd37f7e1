import EntityStore.Proofs.Repair.Deletion
import EntityStore.Proofs.Snapshot.Loading
import EntityStore.Snapshot.Apply

/-!
# Edits in one transaction

Assignments and deletions are recorded in a transaction over loaded records, and then committed.
Every assignment to an id that is there is recorded, every deletion is, and the commit succeeds.
What it writes is known: an entity that is put shows the committed one with the recorded fields on
top, and only assigned fields and references that were cleared are recorded (`Apply.change_ok`).
-/

namespace EntityStore

open Repair

/-! ## What is recorded of a record -/

namespace Apply

/-- Why a field may be in the update of an entity: it names the entity, it was assigned, or it is a
reference that a repair has cleared. -/
inductive Explained (types : Schema) (assignments : List Assignment) (repairs : Bool) (e : Entity) :
    String → PropertyValue → Prop
  | id {value} : Explained types assignments repairs e Properties.idKey value
  | assigned {a value} : a ∈ assignments → a.id = e.id →
      Explained types assignments repairs e a.field value
  | cleared {field type} : repairs = true → types.find? e.tag = some type →
      type.references.contains field = true → Explained types assignments repairs e field none

/-- A record shows the committed one, which is of its type, with the recorded fields on top, and all
of these are explained. -/
structure Drawn (types : Schema) (assignments : List Assignment) (repairs : Bool)
    (b : Option Entity) (e : Entity) (d : Properties) : Prop where
  overlaid : Overlaid b e d
  tag : ∀ c, b = some c → c.tag = e.tag
  explained : ∀ field value, d.find? field = some value →
    Explained types assignments repairs e field value

variable {types : Schema} {assignments : List Assignment} {repairs : Bool} {b : Option Entity}
  {e e' : Entity} {d : Properties} {field : String} {value : PropertyValue}

theorem drawn_forId (h : e.Regular) :
    Drawn types assignments repairs (some e) e (Properties.forId e.id) := by
  refine ⟨overlaid_forId h, fun c hc => by cases hc; rfl, fun field value hfield => ?_⟩
  rw [Properties.forId, OrderedMap.find?_insert] at hfield
  split at hfield
  · rename_i heq
    subst heq
    exact .id
  · cases hfield

/-- One more field is recorded of a record, which now shows it. -/
theorem Drawn.insert (h : Drawn types assignments repairs b e d) (hid : e'.id = e.id)
    (htag : e'.tag = e.tag) (hshows : e'.properties = e.properties.insert field value)
    (hfield : Explained types assignments repairs e' field value) :
    Drawn types assignments repairs b e' (d.insert field value) := by
  refine ⟨overlaid_edit hshows h.overlaid, fun c hc => (h.tag c hc).trans htag.symm, ?_⟩
  intro other recorded hother
  rw [OrderedMap.find?_insert] at hother
  split at hother
  · rename_i heq
    subst heq
    cases hother
    exact hfield
  · cases h.explained other recorded hother with
    | id => exact .id
    | assigned ha heq => exact .assigned ha (heq.trans hid.symm)
    | cleared hrepairs htype href => exact .cleared hrepairs (htag ▸ htype) href

end Apply

open Apply

theorem Entity.Charted.setField {types : Schema} {e : Entity} (h : e.Charted types) {field : String}
    (hfield : Properties.isReserved field = false) (value : PropertyValue) :
    (e.setField field value).Charted types ∧ (e.setField field value).tag = e.tag := by
  obtain ⟨hregular, -, -⟩ := h.regular.setField hfield value
  obtain ⟨type, fields, hbody, htype⟩ := h.typed
  have htag : (e.setField field value).tag = e.tag := by
    simp only [Entity.setField, hbody]
    rfl
  refine ⟨⟨hregular, type, fields.insert field value, ?_, htag ▸ htype⟩, htag⟩
  rw [htag]
  simp only [Entity.setField, hbody]

theorem Entity.Charted.drops {types : Schema} {e e' : Entity} {field : String}
    (h : e.Charted types) (hdrop : Drops e field e') :
    e'.Charted types ∧ e'.tag = e.tag ∧
      ∃ type, types.find? e'.tag = some type ∧ type.references.contains field = true := by
  have hregular := h.regular.drops hdrop
  obtain ⟨type, fields, hbody, htype⟩ := h.typed
  cases hdrop with
  | customer => cases hbody
  | @field id tag schema fields' field target hpolicy htext =>
    cases hbody
    exact ⟨⟨hregular, _, _, rfl, htype⟩, rfl, _, htype, OrderedMap.contains_iff.2 ⟨_, hpolicy⟩⟩

theorem accounts_drawn (types : Schema) (assignments : List Assignment) :
    Work.Accounts (Entity.Charted types) (Drawn types assignments true) False where
  tends h := tendsItself_of_isRecord h.regular.record
  drops h hdrop := (h.drops hdrop).1
  fresh h := drawn_forId h.regular
  noted h hdrop hdrawn := by
    obtain ⟨-, htag, type, htype, href⟩ := h.drops hdrop
    exact hdrawn.insert hdrop.id htag hdrop.properties (.cleared rfl htype href)
  muted h := h.elim

/-! ## What is there when the commit comes -/

namespace Apply

/-- A transaction over loaded records in which assignments and deletions have been recorded, and
nothing has been written. -/
structure Draft (types : Schema) (assignments : List Assignment) (repairs : Bool) (s : Store)
    (w : Work) : Prop where
  kept : w.Kept (Entity.Charted types) (Drawn types assignments repairs) Callback.Barred
  store : s.Still w.store
  active : w.txn.state = .active
  autoCommit : w.txn.autoCommit = false
  heeding : w.txn.ignoreModifications = false
  ensuring : w.txn.ensuring = false
  repairs : w.txn.ensureIntegrity = repairs

variable {types : Schema} {assignments : List Assignment} {repairs : Bool} {s : Store} {w w' : Work}
  {run : HookRunner} {a : Assignment}

theorem draft_begin (hcharted : s.Holds (Entity.Charted types))
    (hauto : s.config.autoCommit = false) (name : String) (assignments : List Assignment)
    (repairs : Bool) :
    Draft types assignments repairs s
      ((s.begin name).onTxn fun t => { t with ensureIntegrity := repairs }) := by
  have hbegun : (s.begin name).Kept (Entity.Charted types) (Drawn types assignments repairs)
      Callback.Barred := Session.kept_begin (hcharted _ _) name rfl
  exact ⟨hbegun.of_eq rfl rfl rfl rfl rfl rfl, s.still_begin name, rfl, hauto, rfl, rfl, rfl⟩

theorem Draft.writeThrough (h : Draft types assignments repairs s w) (run : HookRunner) :
    w.writeThrough run = (.ok (), w) :=
  Work.writeThrough_withheld (Work.writesThrough_of_manual h.autoCommit) run

/-- A field is assigned to an entity that is there. -/
theorem Draft.assign (h : Draft types assignments repairs s w) (hmem : a ∈ assignments)
    (hfield : Properties.isReserved a.field = false) (hdeleted : w.txn.deleted = .empty)
    (hthere : s.backend.table.contains a.id = true) (run : HookRunner) :
    ∃ w', Apply.assign run a w = (.ok (), w') ∧ Draft types assignments repairs s w' ∧
      w'.txn.deleted = .empty ∧ w'.txn.isEmpty = false := by
  have hsees : w.contains a.id = true := by
    have hcommitted : w.store.backend.contains a.id = true := by
      rw [Backend.contains, h.store.table, hthere]
    have halive : w.txn.deleted.contains a.id = false := by
      rw [hdeleted]
      rfl
    simp [Work.contains, halive, hcommitted]
  obtain ⟨e, he⟩ := h.kept.get hsees
  have hcand := Work.candidate?_of_get he
  have hid := Work.id_of_candidate? hcand
  obtain ⟨hcharted, hdrawn⟩ := h.kept.candidate (fun h => drawn_forId h.regular) hcand
  obtain ⟨hcharted', htag⟩ := hcharted.setField hfield a.value
  obtain ⟨-, hid', hshows⟩ := hcharted.regular.setField hfield a.value
  replace hdrawn := hdrawn.insert hid' htag hshows (.assigned hmem (hid.symm.trans hid'.symm))
  let changed := e.setField a.field a.value
  replace hid' : changed.id = a.id := hid'.trans hid
  rw [← hid'] at hdrawn hsees
  have halive : w.txn.deleted.contains changed.id = false := by
    rw [hdeleted]
    rfl
  have hkept : (w.takeDown changed a.field a.value).Kept (Entity.Charted types)
      (Drawn types assignments repairs) Callback.Barred :=
    h.kept.put hcharted' hdrawn halive rfl (fun id => OrderedMap.find?_insert ..) rfl
      h.kept.checking rfl rfl
  have hdraft : Draft types assignments repairs s (w.takeDown changed a.field a.value) :=
    ⟨hkept, h.store.trans (w.calm_takeDown _ _ _).still, h.active, h.autoCommit, h.heeding,
      h.ensuring, h.repairs⟩
  refine ⟨_, ?_, hdraft, hdeleted, ?_⟩
  · rw [Apply.assign, he]
    show w.modified run changed a.field a.value = _
    simp only [Work.modified, h.active, Transaction.State.ensureRecording, h.heeding, hsees]
    exact hdraft.writeThrough run
  · have hput : (w.txn.modified.add changed).contains changed.id = true := by
      simp [Index.contains_add]
    exact Transaction.isEmpty_of_put hput

/-- An id is deleted, whether it is there or not. -/
theorem Draft.delete (h : Draft types assignments repairs s w) (id : EntityId) (run : HookRunner) :
    ∃ w', w.delete run id = (.ok (), w') ∧ Draft types assignments repairs s w' ∧
      w'.txn.isEmpty = false := by
  unfold Work.delete
  simp only [h.active, Transaction.State.ensureRecording]
  split
  · rename_i hdeleted
    exact ⟨w, rfl, h, Transaction.isEmpty_of_deleted hdeleted⟩
  · have hnone : (w.onTxn (·.recordDeletion id)).txn =
        { w.txn.recordDeletion id with checking := none } := by
      rw [← h.kept.checking]
      rfl
    have hdraft : Draft types assignments repairs s
        ((w.onTxn (·.recordDeletion id)).onStore (·.onBackend Backend.noteModification)) :=
      ⟨h.kept.strike id hnone rfl, h.store.trans (Store.Quiet.noteModification _).still, h.active,
        h.autoCommit, h.heeding, h.ensuring, h.repairs⟩
    have hpass : ((w.onTxn (·.recordDeletion id)).onStore
        (·.onBackend Backend.noteModification)).txn.ensuring = false := h.ensuring
    rw [if_neg (by rw [hpass]; simp)]
    refine ⟨_, hdraft.writeThrough run, hdraft, ?_⟩
    have hdeleted : (w.txn.deleted.add id).contains id = true := by
      simp [OrderedMap.contains_add]
    exact Transaction.isEmpty_of_deleted hdeleted

/-- A list is gone through if every operation succeeds where all before it have. -/
theorem each_ok {α : Type} {I : Work → Prop} {operation : α → Work → Result Unit × Work}
    {items : List α} (h : ∀ item ∈ items, ∀ w, I w → ∃ w', operation item w = (.ok (), w') ∧ I w' ∧
      w'.txn.isEmpty = false) (hw : I w) :
    ∃ w', each operation items w = (.ok (), w') ∧ I w' ∧
      w'.txn.isEmpty = (w.txn.isEmpty && items.isEmpty) := by
  induction items generalizing w with
  | nil => exact ⟨w, rfl, hw, by simp⟩
  | cons item rest ih =>
    obtain ⟨w₁, hfirst, hw₁, hempty⟩ := h item List.mem_cons_self w hw
    obtain ⟨w₂, hrest, hw₂, hempty'⟩ := ih (fun x hx => h x (List.mem_cons_of_mem _ hx)) hw₁
    refine ⟨w₂, ?_, hw₂, ?_⟩
    · rw [each, hfirst]
      exact hrest
    · rw [hempty', hempty]
      simp

/-- All assignments and then all deletions are recorded. -/
theorem Draft.edits (h : Draft types assignments repairs s w) (hnew : w.txn.deleted = .empty)
    (hfields : ∀ a ∈ assignments, Properties.isReserved a.field = false)
    (hthere : ∀ a ∈ assignments, s.backend.table.contains a.id = true) (run : HookRunner)
    (deletes : List EntityId) :
    ∃ w₁ w₂, each (Apply.assign run) assignments w = (.ok (), w₁) ∧
      each (fun id w => w.delete run id) deletes w₁ = (.ok (), w₂) ∧
      Draft types assignments repairs s w₂ ∧
      w₂.txn.isEmpty = (w.txn.isEmpty && assignments.isEmpty && deletes.isEmpty) := by
  have hassign (a : Assignment) (ha : a ∈ assignments) (w : Work)
      (hw : Draft types assignments repairs s w ∧ w.txn.deleted = .empty) :
      ∃ w', Apply.assign run a w = (.ok (), w') ∧
        (Draft types assignments repairs s w' ∧ w'.txn.deleted = .empty) ∧
        w'.txn.isEmpty = false := by
    obtain ⟨w', hok, hdraft, hdeleted, hempty⟩ :=
      hw.1.assign ha (hfields a ha) hw.2 (hthere a ha) run
    exact ⟨w', hok, ⟨hdraft, hdeleted⟩, hempty⟩
  have hdelete (id : EntityId) (_ : id ∈ deletes) (w : Work)
      (hw : Draft types assignments repairs s w) := hw.delete id run
  obtain ⟨w₁, hassigned, ⟨hdraft, -⟩, hempty⟩ := each_ok hassign ⟨h, hnew⟩
  obtain ⟨w₂, hdeleted, hdraft', hempty'⟩ := each_ok hdelete hdraft
  exact ⟨w₁, w₂, hassigned, hdeleted, hdraft', by rw [hempty', hempty]⟩

end Apply

/-! ## The commit -/

section Commit

variable {P : Entity → Prop} {Rel : Option Entity → Entity → Properties → Prop} {run : HookRunner}
  {w w' : Work}

theorem Work.Kept.no_callbacks (hw : w.Kept P Rel Callback.Barred) : w.txn.callbacks = [] :=
  List.eq_nil_iff_forall_not_mem.2 fun c hc => hw.callbacks c hc

/-- A commit without changes moves nothing. -/
theorem Work.Kept.unmoved_commit (hw : w.Kept P Rel Callback.Barred)
    (hempty : w.txn.isEmpty = true) (hok : w.commit run = (.ok (), w')) :
    w.store.Unmoved w'.store := by
  have hcalled : w.runCallbacks.store = w.store := by
    rw [runCallbacks, hw.no_callbacks]
    rfl
  rcases w.commit_cases run with ⟨-, err, heq⟩ | ⟨-, -, heq⟩ | ⟨-, hno, -⟩ | ⟨-, hno, -⟩
  · rw [heq] at hok
    cases hok
  · rw [heq] at hok
    cases hok
    rw [← hcalled]
    exact (unmoved_finish _ .committed).trans (unmoved_count _ _)
  · rw [hempty] at hno
    cases hno
  · rw [hempty] at hno
    cases hno

/-- Where no callbacks wait, what is handed over is all that others see. -/
theorem Work.Kept.delivers_applyPending (hw : w.Kept P Rel Callback.Barred)
    (h : w.applyPending = (.ok (), w')) :
    w.store.Delivers w.txn.batch w.txn.changeSet w'.store := by
  rcases w.applyPending_cases with ⟨err, b, -, heq⟩ | ⟨b, hb, heq⟩
  · rw [heq] at h
    cases h
  · rw [heq] at h
    cases h
    rw [Work.store_settle, hw.no_callbacks]
    obtain ⟨htable, happlied, hfeed, hrun⟩ := Work.delivers_applied (w := w) hb
    exact ⟨htable, happlied, hfeed, hrun⟩

/-- A commit that succeeds hands over what is known once references are repaired, if they are. -/
theorem Work.Kept.delivers_commit (hw : w.Kept P Rel Callback.Barred)
    (h : w.txn.ensureIntegrity = true → Work.Accounts P Rel False) (hrun : Honours run)
    (hheeding : w.txn.ignoreModifications = false) (hempty : w.txn.isEmpty = false)
    (hok : w.commit run = (.ok (), w')) :
    ∃ u : Work, u.Kept P Rel Callback.Barred ∧ w.store.Still u.store ∧
      u.store.Delivers u.txn.batch u.txn.changeSet w'.store := by
  have hstart : (w.inState .committing).Kept P Rel Callback.Barred :=
    hw.of_eq rfl rfl rfl hw.checking rfl rfl
  rcases w.commit_cases run with ⟨-, err, heq⟩ | ⟨-, hno, -⟩ | ⟨-, -, v, hwrite, heq⟩ |
    ⟨-, -, err, v, -, heq⟩
  · rw [heq] at hok
    cases hok
  · rw [hempty] at hno
    cases hno
  · have hpending : ∃ u : Work, u.Kept P Rel Callback.Barred ∧ w.store.Still u.store ∧
        u.applyPending = (.ok (), v) := by
      rcases Work.writePending_cases run (w.inState .committing) with ⟨-, err, u, -, hfails⟩ |
        ⟨hflag, u, hu, hpending⟩ | ⟨-, hpending⟩
      · rw [hwrite] at hfails
        cases hfails
      · have hrepaired := Work.Tending.ensureIntegrity (h hflag) hrun
          ⟨hstart, rfl, fun hignores => absurd (hheeding.symm.trans hignores) (by simp)⟩
        rw [hu] at hrepaired
        exact ⟨u, hrepaired.1, hrepaired.2, hpending.symm.trans hwrite⟩
      · exact ⟨_, hstart, .refl _, hpending.symm.trans hwrite⟩
    obtain ⟨u, hu, hstill, hpending⟩ := hpending
    obtain ⟨htable, happlied, hfeed, hcalled⟩ := hu.delivers_applyPending hpending
    rw [heq] at hok
    cases hok
    exact ⟨u, hu, hstill, htable, (Work.applied_finish _ _).trans happlied, hfeed, hcalled⟩
  · rw [heq] at hok
    cases hok

end Commit

namespace Apply

variable {types : Schema} {assignments : List Assignment} {repairs : Bool} {s : Store} {w : Work}
  {run : HookRunner}

/-- The commit succeeds, whether references are repaired or not. -/
theorem Draft.commit_ok (h : Draft types assignments repairs s w) (hrun : Honours run)
    (hplain : s.backend.instrument = .plain) (hpasses : 2 ≤ s.config.maxIntegrityPasses)
    (hfew : s.config.maxIntegrityPasses ≤ UInt64.size / 2) :
    ∃ w', w.commit run = (.ok (), w') := by
  have hactive : w.txn.isActive = true := by simp [Transaction.isActive, h.active]
  have hinstrument := h.store.instrument.trans hplain
  cases hflag : w.txn.ensureIntegrity with
  | true =>
    have hrecords : w.Kept (isRecord · = true) (fun _ _ _ => True) Callback.Barred :=
      h.kept.mono (fun he => he.regular.record) fun _ => trivial
    have hlimit : w.maxPasses = s.config.maxIntegrityPasses :=
      congrArg Config.maxIntegrityPasses h.store.config
    have hroom : w.HasRoom := Work.hasRoom_of_few (hlimit ▸ hpasses) (hlimit ▸ hfew)
    obtain ⟨w', hok, -⟩ :=
      Work.commitSucceeds_of_records hrun hrecords hinstrument hroom hactive hflag
    exact ⟨w', hok⟩
  | false =>
    have hwrite := (Work.writePending_as_is (w := w.inState .committing) run hflag).trans
      (Work.applyPending_plain hinstrument)
    cases hempty : w.txn.isEmpty with
    | true => exact ⟨_, Work.commit_of_empty run h.active hempty⟩
    | false => exact ⟨_, Work.commit_of_written h.active hempty hwrite⟩

/-- The edits of a snapshot succeed. Without any, nothing has moved. Otherwise one batch has been
handed over, all of whose records are drawn from the committed ones. -/
theorem Draft.change_ok (h : Draft types assignments repairs s w)
    (hmodified : w.txn.modified = .empty) (hdeleted : w.txn.deleted = .empty)
    (hfields : ∀ a ∈ assignments, Properties.isReserved a.field = false)
    (hthere : ∀ a ∈ assignments, s.backend.table.contains a.id = true) (hrun : Honours run)
    (hplain : s.backend.instrument = .plain) (hpasses : 2 ≤ s.config.maxIntegrityPasses)
    (hfew : s.config.maxIntegrityPasses ≤ UInt64.size / 2) (deletes : List EntityId) :
    ∃ w', change run assignments deletes w = (.ok (), w') ∧
      (assignments = [] ∧ deletes = [] ∧ s.Unmoved w'.store ∨
        ¬ (assignments = [] ∧ deletes = []) ∧ ∃ u : Work,
          u.Kept (Entity.Charted types) (Drawn types assignments repairs) Callback.Barred ∧
            s.Unmoved u.store ∧ u.store.Delivers u.txn.batch u.txn.changeSet w'.store) := by
  obtain ⟨w₁, w₂, hassigned, hstruck, hdraft, hempty⟩ :=
    h.edits hdeleted hfields hthere run deletes
  obtain ⟨w', hcommit⟩ := hdraft.commit_ok hrun hplain hpasses hfew
  have hchange : change run assignments deletes w = (.ok (), w') := by
    simp only [change, hassigned, hstruck, hcommit]
  have hnew : w.txn.isEmpty = true := by
    rw [Transaction.isEmpty, hmodified, hdeleted]
    rfl
  rw [hnew, Bool.true_and] at hempty
  refine ⟨w', hchange, ?_⟩
  cases hwritten : w₂.txn.isEmpty with
  | true =>
    rw [hwritten, eq_comm, Bool.and_eq_true, List.isEmpty_iff, List.isEmpty_iff] at hempty
    have hunmoved := hdraft.kept.unmoved_commit hwritten hcommit
    exact .inl ⟨hempty.1, hempty.2, hdraft.store.toUnmoved.trans hunmoved⟩
  | false =>
    rw [hwritten, eq_comm, ← Bool.not_eq_true, Bool.and_eq_true, List.isEmpty_iff,
      List.isEmpty_iff] at hempty
    refine .inr ⟨hempty, ?_⟩
    have haccounts (hflag : w₂.txn.ensureIntegrity = true) :
        Work.Accounts (Entity.Charted types) (Drawn types assignments repairs) False := by
      rw [← hdraft.repairs, hflag]
      exact accounts_drawn types assignments
    obtain ⟨u, hu, hstill, hdelivers⟩ :=
      hdraft.kept.delivers_commit haccounts hrun hdraft.heeding hwritten hcommit
    exact ⟨u, hu, hdraft.store.toUnmoved.trans hstill.toUnmoved, hdelivers⟩

end Apply

end EntityStore
