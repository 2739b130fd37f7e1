import EntityStore.Proofs.Repair.Bookkeeping

/-!
# What a completed pass over records leaves

Once an entity has passed its check, another check of it would change nothing, whether modifications
are ignored or not. Where they are ignored, a record that is not to be put may well keep references
that dangle: its check finds them every time and leaves them every time. A pass that completes
therefore leaves everything stable that the next pass looks at (`Work.integrityPass_tended`), and
that pass completes and changes nothing (`Work.Tended.integrityPass`).
-/

namespace EntityStore

open Repair

/-! ## Checks that ignore modifications -/

namespace Repair

/-- Where changes of fields are not recorded, a check that goes through reference fields leaves the
unit of work alone, unless its record has to go. -/
theorem run_checkFields_muted (refs : List (String × DanglingPolicy)) {w : Work} {id : EntityId}
    (hw : w.Examining id) (hignores : w.txn.ignoreModifications = true) (type : TypeTag)
    (schema : TypeSchema) (fields : Properties) (run : HookRunner) :
    match mendFields w.contains refs fields with
    | none => ∃ body w', (checkFields ⟨id, .record type schema fields⟩ refs).run run w =
        (⟨body, .error .integrityRestart⟩, w')
    | some mended => (checkFields ⟨id, .record type schema fields⟩ refs).run run w =
        (⟨.record type schema mended, .ok ()⟩, w) := by
  induction refs generalizing fields with
  | nil => rfl
  | cons ref rest ih =>
    obtain ⟨field, policy⟩ := ref
    unfold mendFields checkFields
    simp only [Entity.field?]
    cases htext : Properties.text? fields field with
    | none => exact ih fields
    | some target =>
      simp only [Program.run, Operation.perform]
      by_cases hsees : w.contains target = true
      · simp only [hsees, if_true]
        exact ih fields
      · simp only [hsees, if_false, Bool.false_eq_true]
        cases policy with
        | delete =>
          obtain ⟨w', heq, -⟩ := Work.delete_of_examining hw run
          refine ⟨.record type schema fields, w', ?_⟩
          simp only [deleteSelf, leave, Program.run, Operation.perform, heq]
        | clear =>
          have hdropped : w.modified run ⟨id, .record type schema (fields.insert field none)⟩ field
              none = (.ok (), w) := by
            simp [Work.modified, hw.recording, hignores]
          simp only [Entity.setField, Program.run, Operation.perform, hdropped]
          exact ih _

end Repair

namespace Work

variable {run : HookRunner} {u b v w w' : Work} {id : EntityId} {e : Entity}

/-- What the check of a record comes to where modifications are ignored, by what is decided. -/
inductive MutedCheck (w : Work) (id : EntityId) (e : Entity) : Result Unit × Work → Prop
  | kept {w' : Work} : verdict w.visible w.visible e = .keep →
      w'.txn = { w.txn with checking := none } → MutedCheck w id e (.ok (), w')
  | mended {body : Body} {w' : Work} : verdict w.visible w.visible e = .mend body →
      w.txn.modified.contains id = true →
      w'.txn = { w.txn with modified := w.txn.modified.add ⟨id, body⟩, checking := none } →
      MutedCheck w id e (.ok (), w')
  /-- What is not to be put is not mended either. -/
  | spared {body : Body} {w' : Work} : verdict w.visible w.visible e = .mend body →
      w.txn.modified.contains id = false → w'.txn = { w.txn with checking := none } →
      MutedCheck w id e (.ok (), w')
  | removed {err : StoreError} {w' : Work} : verdict w.visible w.visible e = .remove →
      MutedCheck w id e (.error err, w')

theorem checkEntity_muted (hrun : Honours run) (hw : w.Passing)
    (hignores : w.txn.ignoreModifications = true) (he : isRecord e = true)
    (hcand : w.candidate? id = some e) (hd : w.txn.deleted.contains id = false) :
    w.MutedCheck id e (w.checkEntity run id) := by
  obtain rfl := id_of_candidate? hcand
  have hv := visible_of_candidate? hcand hd
  obtain ⟨lower, hlower⟩ := hrun.check e (w.checkOut e.id) (tendsItself_of_isRecord he)
  obtain ⟨id, type, schema, fields, rfl⟩ := exists_of_isRecord he
  have hfields := run_checkFields_muted schema.references.entries (hw.examining hd) hignores type
    schema fields lower
  rw [contains_checkOut hv] at hfields
  simp only [checkEntity, hcand, hlower, check]
  cases hmend : mendFields w.visible schema.references.entries fields with
  | none =>
    rw [hmend] at hfields
    obtain ⟨body, after, heq⟩ := hfields
    rw [heq]
    exact .removed (by simp [verdict, hmend])
  | some mended =>
    rw [hmend] at hfields
    simp only [hfields]
    by_cases hsame : mended = fields
    · subst hsame
      exact .kept (by simp [verdict, hmend]) (checkIn_checkOut hcand hd)
    · have hverdict : verdict w.visible w.visible ⟨id, .record type schema fields⟩ =
          .mend (.record type schema mended) := by
        simp [verdict, hmend, hsame]
      have htxn := checkIn_checkOut_of_changed ⟨id, .record type schema mended⟩ hd
      cases htracked : w.txn.modified.contains id with
      | true =>
        rw [htracked] at htxn
        exact .mended hverdict htracked htxn
      | false =>
        rw [htracked] at htxn
        exact .spared hverdict htracked htxn

/-! ## Checks -/

/-- What a check that succeeds leaves alone. -/
structure Spares (w : Work) (id : EntityId) (w' : Work) : Prop where
  deleted : w'.txn.deleted = w.txn.deleted
  known : ∀ other, w'.txn.modified.contains other = true →
    w.txn.modified.contains other = true ∨ other = id

theorem Treated.spares (hcand : w.candidate? id = some e) (h : w.Treated id e (.ok (), w')) :
    w.Spares id w' := by
  obtain rfl := id_of_candidate? hcand
  have hadded : ∀ {fields e' other}, Trims e fields e' →
      (w.txn.modified.add e').contains other = true →
        w.txn.modified.contains other = true ∨ other = e.id := by
    intro fields e' other htrims h
    rw [Index.contains_add, htrims.id, Bool.or_eq_true, decide_eq_true_iff] at h
    exact h.symm.imp_right Eq.symm
  cases h with
  | left htxn _ => exact ⟨by rw [htxn], fun _ h => .inl (by rwa [htxn] at h)⟩
  | trimmed _ htrims htxn _ => exact ⟨by rw [htxn], fun _ h => hadded htrims (by rwa [htxn] at h)⟩
  | muted _ htrims _ htxn _ => exact ⟨by rw [htxn], fun _ h => hadded htrims (by rwa [htxn] at h)⟩

theorem Treated.cut {err : StoreError} (he : isRecord e = true)
    (h : w.Treated id e (.error err, w')) :
    err = .integrityRestart ∧ w'.txn = { w.txn.recordDeletion id with checking := none } := by
  cases h with
  | struck htxn _ => exact ⟨rfl, htxn⟩
  | refused hnot _ _ =>
    rw [he] at hnot
    cases hnot

/-! ## One pass -/

/-- A unit of work whose entities are all records, in the midst of a repair. -/
abbrev Clerical (w : Work) : Prop :=
  w.Tending (isRecord · = true) (fun _ _ _ => True) (fun _ => True) True

theorem accounts_records : Accounts (isRecord · = true) (fun _ _ _ => True) True where
  tends := tendsItself_of_isRecord
  drops he hdrop := hdrop.isRecord.trans he
  fresh _ := trivial
  noted _ _ _ := trivial
  muted := fun _ _ _ _ _ _ _ _ _ => trivial

/-- There is an entity to check under an id. -/
def Known (w : Work) (id : EntityId) : Prop :=
  w.txn.modified.contains id = true ∨ w.store.backend.table.contains id = true

theorem known_of_candidate? (h : w.candidate? id = some e) : w.Known id := by
  rcases Option.or_eq_some_iff.1 h with h | ⟨-, h⟩
  · exact .inl (Index.contains_iff_find?.2 ⟨e, h⟩)
  · exact .inr (Index.contains_iff_find?.2 ⟨e, h⟩)

theorem Known.of_put (h : w'.Known id) (hput : w'.txn.modified.contains id = true → w.Known id)
    (htable : w'.store.backend.table = w.store.backend.table) : w.Known id := by
  rcases h with h | h
  · exact hput h
  · exact .inr (htable ▸ h)

/-- A unit of work in a pass over records that began with another, as long as checks succeed. -/
structure Amid (b w : Work) : Prop where
  clerical : w.Clerical
  ensuring : w.txn.ensuring = true
  calm : b.store.Calm w.store
  deleted : w.txn.deleted = b.txn.deleted
  known : ∀ id, w.Known id → b.Known id
  ignoring : w.txn.ignoreModifications = b.txn.ignoreModifications

theorem Amid.refl (hw : w.Clerical) (hensuring : w.txn.ensuring = true) : w.Amid w :=
  ⟨hw, hensuring, .refl _, rfl, fun _ h => h, rfl⟩

theorem Amid.sound (h : b.Amid w) : w.Sound := h.clerical.kept.sound accounts_records

theorem Amid.passing (h : b.Amid w) : w.Passing := ⟨h.clerical.recording, h.ensuring⟩

theorem Amid.record (h : b.Amid w) (hcand : w.candidate? id = some e) : isRecord e = true :=
  (h.clerical.kept.candidate accounts_records.fresh hcand).1

section

variable (hrun : Honours run)
include hrun

theorem Amid.checkEntity (h : b.Amid w) (hd : w.txn.deleted.contains id = false)
    (hcand : w.candidate? id = some e) :
    w.Treated id e (w.checkEntity run id) ∧ (w.checkEntity run id).2.Clerical ∧
      (w.checkEntity run id).2.txn.ensuring = true ∧
      w.store.Calm (w.checkEntity run id).2.store := by
  obtain ⟨hclerical, hensuring, hcalm⟩ :=
    h.clerical.checkEntity accounts_records hrun h.ensuring (.inr hd)
  exact ⟨checkEntity_treated hrun h.passing (h.sound.candidate hcand) hcand hd, hclerical,
    hensuring, hcalm⟩

theorem amid_sustains (b : Work) :
    Sustains run b.Amid fun id w => w.txn.deleted.contains id = false where
  first hw hmod := hw.sound.alive hmod
  next _ _ _ hd := hd
  check {id w w'} hw hd heq := by
    cases hcand : w.candidate? id with
    | none =>
      rw [Work.checkEntity, hcand] at heq
      cases heq
      exact hw
    | some e =>
      obtain ⟨htreated, hclerical, hensuring, hcalm⟩ := hw.checkEntity hrun hd hcand
      rw [heq] at htreated hclerical hensuring hcalm
      have hspares := htreated.spares hcand
      obtain ⟨-, -, hsettings⟩ := htreated.settings
      refine ⟨hclerical, hensuring, hw.calm.trans hcalm, hspares.deleted.trans hw.deleted,
        fun other hother => hw.known other (hother.of_put (fun hput => ?_) hcalm.table),
        hsettings.ignoring.trans hw.ignoring⟩
      rcases hspares.known other hput with hput | rfl
      · exact .inl hput
      · exact known_of_candidate? hcand
  query {w} hw :=
    { hw with
      clerical := hw.clerical.of_eq
        (hw.clerical.kept.of_eq rfl rfl rfl hw.clerical.kept.checking rfl rfl) rfl ⟨rfl, rfl⟩
      calm := hw.calm.trans (.countQuery _) }

/-- What a pass over records leaves that is cut short. -/
structure CutAt (b : Work) (id : EntityId) (w : Work) : Prop where
  clerical : w.Clerical
  calm : b.store.Calm w.store
  deleted : w.txn.deleted = b.txn.deleted.add id
  fresh : b.txn.deleted.contains id = false
  known : ∀ other, w.Known other → b.Known other
  struck : b.Known id

theorem integrityPass_cut (hw : w.Clerical) (hensuring : w.txn.ensuring = true) {err : StoreError}
    (h : integrityPass run w = (.error err, w')) :
    err = .integrityRestart ∧ ∃ id, w.CutAt id w' := by
  have hends := (amid_sustains hrun w).integrityPass (.refl hw hensuring)
  rw [h] at hends
  cases hends with
  | @cut id v err _ hv hd heq =>
    cases hcand : v.candidate? id with
    | none => simp [Work.checkEntity, hcand] at heq
    | some e =>
      obtain ⟨htreated, hclerical, -, hcalm⟩ := hv.checkEntity hrun hd hcand
      rw [heq] at htreated hclerical hcalm
      obtain ⟨rfl, htxn⟩ := htreated.cut (hv.record hcand)
      refine ⟨rfl, id, hclerical, hv.calm.trans hcalm, ?_, hv.deleted ▸ hd,
        fun other hother => hv.known other (hother.of_put (fun hput => .inl ?_) hcalm.table),
        hv.known id (known_of_candidate? hcand)⟩
      · rw [htxn, ← hv.deleted]
        rfl
      · rw [htxn, Transaction.recordDeletion, Index.contains_remove, Bool.and_eq_true] at hput
        exact hput.2

theorem integrityPass_amid (hw : w.Clerical) (hensuring : w.txn.ensuring = true)
    {checked : OrderedSet} (h : integrityPass run w = (.ok checked, w')) : w.Amid w' := by
  have hends := (amid_sustains hrun w).integrityPass (.refl hw hensuring)
  rw [h] at hends
  cases hends with
  | completed hw' => exact hw'

end

/-! ## What a check leaves stable -/

/-- Another check of the entity under an id would find its references in order. Or modifications are
ignored, and it would mend what is not to be put. -/
def Stable (w : Work) (id : EntityId) : Prop :=
  ∀ e, w.candidate? id = some e → (∀ ref ∈ e.references, w.visible ref = true) ∨
    w.txn.ignoreModifications = true ∧ w.txn.modified.contains id = false ∧
      ∃ body, verdict w.visible w.visible e = .mend body

theorem Stable.of_eq (h : w.Stable id) (hcand : w'.candidate? id = w.candidate? id)
    (hvisible : w'.visible = w.visible)
    (hmodified : w'.txn.modified.contains id = w.txn.modified.contains id)
    (hignoring : w'.txn.ignoreModifications = w.txn.ignoreModifications) : w'.Stable id := by
  intro e he
  rw [hcand] at he
  rw [hvisible, hmodified, hignoring]
  exact h e he

theorem Stable.congr (h : w.Stable id) (hmodified : w'.txn.modified = w.txn.modified)
    (hdeleted : w'.txn.deleted = w.txn.deleted)
    (hignoring : w'.txn.ignoreModifications = w.txn.ignoreModifications)
    (htable : w'.store.backend.table = w.store.backend.table) : w'.Stable id :=
  h.of_eq (congrFun (candidate?_congr hmodified htable) id)
    (visible_congr hmodified hdeleted htable) (by rw [hmodified]) hignoring

/-- A check that takes its entity in, or leaves it, settles it and nothing else. -/
theorem stable_of_mutedCheck (hcand : w.candidate? id = some e) (he : isRecord e = true)
    (hd : w.txn.deleted.contains id = false) (hignores : w.txn.ignoreModifications = true)
    (htable : w'.store.backend.table = w.store.backend.table)
    (h : w.MutedCheck id e (.ok (), w')) :
    w'.Stable id ∧ ∀ other, id ≠ other → (w.Stable other → w'.Stable other) ∧
      (w'.txn.modified.contains other = true → w.txn.modified.contains other = true) := by
  obtain rfl := id_of_candidate? hcand
  -- a check that changes nothing
  have left : w'.txn = { w.txn with checking := none } →
      w'.candidate? = w.candidate? ∧ w'.visible = w.visible := fun htxn =>
    ⟨candidate?_congr (by rw [htxn]) htable, visible_congr (by rw [htxn]) (by rw [htxn]) htable⟩
  have elsewhere : w'.txn = { w.txn with checking := none } → ∀ other, e.id ≠ other →
      (w.Stable other → w'.Stable other) ∧
        (w'.txn.modified.contains other = true → w.txn.modified.contains other = true) := by
    intro htxn other _
    obtain ⟨hcandidate, hvisible⟩ := left htxn
    exact ⟨fun hother => hother.of_eq (congrFun hcandidate other) hvisible (by rw [htxn])
      (by rw [htxn]), fun hput => by rwa [htxn] at hput⟩
  cases h with
  | kept hverdict htxn =>
    obtain ⟨hcandidate, hvisible⟩ := left htxn
    refine ⟨fun x hx => .inl fun ref href => ?_, elsewhere htxn⟩
    rw [hcandidate, hcand] at hx
    cases hx
    rw [hvisible]
    exact sees_of_keep (tendsItself_of_isRecord he) (fun _ h => h) hverdict ref href
  | spared hverdict huntracked htxn =>
    obtain ⟨hcandidate, hvisible⟩ := left htxn
    refine ⟨fun x hx => .inr ?_, elsewhere htxn⟩
    rw [hcandidate, hcand] at hx
    cases hx
    rw [hvisible]
    exact ⟨by rw [htxn, hignores], by rw [htxn, huntracked], _, hverdict⟩
  | @mended body _ hverdict htracked htxn =>
    obtain ⟨hself, hvisible, hother⟩ :=
      candidate?_of_replaced hcand hd (by rw [htxn]) (by rw [htxn]) htable
    refine ⟨fun x hx => .inl fun ref href => ?_, fun other hne => ?_⟩
    · rw [hself] at hx
      cases hx
      rw [hvisible]
      exact (sees_of_mend hverdict).2 ref href
    · obtain ⟨hcandidate, hmodified⟩ := hother other hne
      exact ⟨fun h => h.of_eq hcandidate hvisible hmodified (by rw [htxn]),
        fun hput => hmodified ▸ hput⟩

section

variable (hrun : Honours run)
include hrun

/-- A check of a record that succeeds leaves it stable, and leaves stable what was. -/
theorem amid_settles (b : Work) : Settles run b.Amid Stable where
  alive hw hput := hw.sound.alive hput
  check {id w w'} hw hd heq := by
    have hw' := (amid_sustains hrun b).check hw hd heq
    have hdeleted : w'.txn.deleted = w.txn.deleted := hw'.deleted.trans hw.deleted.symm
    have hignoring : w'.txn.ignoreModifications = w.txn.ignoreModifications :=
      hw'.ignoring.trans hw.ignoring.symm
    have htable : w'.store.backend.table = w.store.backend.table :=
      hw'.calm.table.trans hw.calm.table.symm
    refine ⟨hw', hdeleted, ?_⟩
    cases hflag : w.txn.ignoreModifications with
    | false =>
      obtain ⟨hsteady, hself, hother⟩ :=
        checkEntity_ok hrun hw.sound ⟨hw.clerical.recording, hw.ensuring, hflag⟩ hd heq
      refine ⟨fun x hx => .inl (hself x hx), fun other hne => ?_⟩
      obtain ⟨hcandidate, hmodified⟩ := hother other hne
      exact ⟨fun h => h.of_eq hcandidate hsteady.visible hmodified hignoring,
        fun hput => hmodified ▸ hput⟩
    | true =>
      cases hcand : w.candidate? id with
      | none =>
        rw [Work.checkEntity, hcand] at heq
        cases heq
        exact ⟨fun x hx => by simp [hcand] at hx, fun _ _ => ⟨fun h => h, fun h => h⟩⟩
      | some e =>
        have hmuted := checkEntity_muted hrun hw.passing hflag (hw.record hcand) hcand hd
        rw [heq] at hmuted
        exact stable_of_mutedCheck hcand (hw.record hcand) hd hflag htable hmuted
  query hw := ⟨(amid_sustains hrun b).query hw, fun _ h => h.congr rfl rfl rfl rfl⟩

end

/-! ## Passes that change nothing -/

/-- Everything that the next pass looks at is stable. -/
structure Tended (w : Work) : Prop where
  pending : ∀ id, w.txn.modified.contains id = true → w.Stable id
  affected : ∀ id ∈ w.affected, w.txn.deleted.contains id = false → w.Stable id

theorem Tended.congr (h : w.Tended) (hmodified : w'.txn.modified = w.txn.modified)
    (hdeleted : w'.txn.deleted = w.txn.deleted)
    (hignoring : w'.txn.ignoreModifications = w.txn.ignoreModifications)
    (htable : w'.store.backend.table = w.store.backend.table) : w'.Tended := by
  refine ⟨fun id hput => ?_, fun id hid hd => ?_⟩
  · exact (h.pending id (hmodified ▸ hput)).congr hmodified hdeleted hignoring htable
  · rw [affected_congr hmodified hdeleted htable] at hid
    exact (h.affected id hid (hdeleted ▸ hd)).congr hmodified hdeleted hignoring htable

/-- A unit of work in a pass that has changed nothing so far. -/
structure Idle (b w : Work) : Prop where
  amid : b.Amid w
  txn : w.txn = b.txn

theorem Idle.tended (h : b.Idle w) (hb : b.Tended) : w.Tended :=
  hb.congr (by rw [h.txn]) (by rw [h.txn]) (by rw [h.txn]) h.amid.calm.table

theorem Idle.affected (h : b.Idle w) : w.affected = b.affected :=
  affected_congr (by rw [h.txn]) (by rw [h.txn]) h.amid.calm.table

section

variable (hrun : Honours run)
include hrun

/-- A pass that completes leaves stable what the next one looks at. -/
theorem integrityPass_tended (hw : w.Clerical) (hensuring : w.txn.ensuring = true)
    {checked : OrderedSet} (h : integrityPass run w = (.ok checked, w')) : w'.Tended := by
  obtain ⟨hw', hdeleted, hpending, u, hu, hdeleted', hfirst, hall⟩ :=
    (amid_settles hrun w).integrityPass (.refl hw hensuring) h
  have htable : w'.store.backend.table = u.store.backend.table :=
    hw'.calm.table.trans hu.calm.table.symm
  refine ⟨hpending, fun id hid hd => ?_⟩
  rw [hdeleted] at hd
  obtain ⟨d, hgone, hne, hid | ⟨e, he, href, rfl⟩⟩ := mem_affected_iff.1 hid
  · -- what the deleted entity referred to was affected in this pass already
    refine hall id (mem_affected_iff.2 ⟨d, ?_, hne, .inl ?_⟩) hd
    · rw [hdeleted', ← hdeleted, hgone]
    · rw [committedReferences, htable] at hid
      exact hid
  · cases hput : w'.txn.modified.contains e.id with
    | true => exact hpending e.id hput
    | false =>
      -- what is not to be put refers to a deleted id as it did before
      have hfound := ((mem_matching_iff fun _ => hw'.sound.apart).1 he).1
      have hnone : w'.txn.modified.find? e.id = none := by
        simpa [Index.contains_eq_isSome] using hput
      simp only [overlay, hnone, hdeleted, hd, Bool.false_eq_true, if_false] at hfound
      cases hput' : u.txn.modified.contains e.id with
      | true => exact hfirst e.id hput'
      | false =>
        refine hall e.id (mem_affected (d := d) ?_ hput' ?_ href ?_) hd
        · rw [← htable]
          exact hfound
        · rw [hdeleted', hd]
        · rw [hdeleted', ← hdeleted, hgone]

/-- The check of a record that is stable changes nothing. -/
theorem checkEntity_stable (hw : b.Amid w) (hd : w.txn.deleted.contains id = false)
    (h : w.Stable id) : ∃ w', w.checkEntity run id = (.ok (), w') ∧ w'.txn = w.txn := by
  cases hcand : w.candidate? id with
  | none => exact ⟨w, by rw [Work.checkEntity, hcand], rfl⟩
  | some e =>
    have hrecord := hw.record hcand
    have hchecking := hw.clerical.kept.checking
    have hkeep : (∀ ref ∈ e.references, w.visible ref = true) → ∀ found,
        verdict w.visible found e = .keep := fun hsees found =>
      (verdict_record _ _ hrecord).2 hsees
    cases hflag : w.txn.ignoreModifications with
    | false =>
      have hv := hkeep ((h e hcand).resolve_right fun hnot => by simp [hflag] at hnot)
      have hresult := checkEntity_result hrun ⟨hw.clerical.recording, hw.ensuring, hflag⟩
        (tendsItself_of_isRecord hrecord) hcand hd
      generalize w.checkEntity run id = out at hresult ⊢
      cases hresult with
      | @kept w' _ htxn _ => exact ⟨w', rfl, by rw [htxn, ← hchecking]⟩
      | mended _ hnot _ _ => rw [hv] at hnot; cases hnot
      | removed hnot _ _ => rw [hv] at hnot; cases hnot
      | refused hnot _ _ => rw [hv] at hnot; cases hnot
    | true =>
      have hmuted := checkEntity_muted hrun hw.passing hflag hrecord hcand hd
      have hdecided : verdict w.visible w.visible e = .keep ∨
          w.txn.modified.contains id = false ∧ ∃ body, verdict w.visible w.visible e = .mend body :=
        (h e hcand).imp (fun hsees => hkeep hsees _) fun hspared => hspared.2
      generalize w.checkEntity run id = out at hmuted ⊢
      cases hmuted with
      | @kept w' _ htxn => exact ⟨w', rfl, by rw [htxn, ← hchecking]⟩
      | @spared _ w' _ _ htxn => exact ⟨w', rfl, by rw [htxn, ← hchecking]⟩
      | mended hv htracked _ => simp [hv, htracked] at hdecided
      | removed hv => simp [hv] at hdecided

theorem idle_sustains (hb : b.Tended) :
    Sustains run b.Idle fun id w => w.txn.deleted.contains id = false ∧ w.Stable id where
  first {id w} hw hput := ⟨hw.amid.sound.alive hput, (hw.tended hb).pending id hput⟩
  next {id u w} hu hid hw hd :=
    ⟨hd, (hw.tended hb).affected id (hw.affected ▸ hu.affected ▸ hid) hd⟩
  check {id w w'} hw hdue heq := by
    obtain ⟨v, heq', htxn⟩ := checkEntity_stable hrun hw.amid hdue.1 hdue.2
    rw [heq] at heq'
    cases heq'
    exact ⟨(amid_sustains hrun b).check hw.amid hdue.1 heq, htxn.trans hw.txn⟩
  query hw := ⟨(amid_sustains hrun _).query hw.amid, hw.txn⟩

/-- Where everything is stable that it looks at, a pass completes and changes nothing. -/
theorem Tended.integrityPass (hb : b.Tended) (hclerical : b.Clerical)
    (hensuring : b.txn.ensuring = true) :
    ∃ checked w', Work.integrityPass run b = (.ok checked, w') ∧ b.Idle w' := by
  have hends := (idle_sustains hrun hb).integrityPass ⟨.refl hclerical hensuring, rfl⟩
  generalize Work.integrityPass run b = out at hends ⊢
  cases hends with
  | @completed checked w' hw' => exact ⟨checked, w', rfl, hw'⟩
  | @cut id v err w' hv hdue heq =>
    obtain ⟨_, hok, -⟩ := checkEntity_stable hrun hv.amid hdue.1 hdue.2
    rw [heq] at hok
    cases hok

end

end Work

end EntityStore
