import EntityStore.Hook.Script
import EntityStore.Index.Lemmas
import EntityStore.Proofs.Transaction.Passes

/-!
# What a signature tells

A signature is a row of pieces, each closed by a null character. Where the ids have none, the ids to
put and the ids to take away can be read off it (`Transaction.ids_eq_of_signature_eq`). The recorded
fields can be read off as well where no text has one of the control characters that part the pieces
(`Transaction.signature_eq_iff`). Only then does a repair that succeeds end with a pass that left
the working set as it was; a value with such characters can make a change go unnoticed.

Main statement: `Work.repair_ends_unchanged`.
-/

namespace EntityStore

/-- Lists that go on after their items with a property, if at all, with one without it are split
there in one way. -/
theorem split_unique {α : Type} {P : α → Prop} {l m r s : List α} (hl : ∀ a ∈ l, P a)
    (hm : ∀ a ∈ m, P a) (hr : ∀ a, r.head? = some a → ¬ P a) (hs : ∀ a, s.head? = some a → ¬ P a)
    (h : l ++ r = m ++ s) : l = m ∧ r = s := by
  induction l generalizing m with
  | nil =>
    cases m with
    | nil => exact ⟨rfl, h⟩
    | cons b m =>
      obtain rfl : r = b :: (m ++ s) := h
      exact absurd (hm b List.mem_cons_self) (hr b rfl)
  | cons a l ih =>
    cases m with
    | nil =>
      obtain rfl : a :: (l ++ r) = s := h
      exact absurd (hl a List.mem_cons_self) (hs a rfl)
    | cons b m =>
      obtain ⟨rfl, hrest⟩ := List.cons.inj h
      obtain ⟨rfl, rfl⟩ := ih (fun x hx => hl x (List.mem_cons_of_mem _ hx))
        (fun x hx => hm x (List.mem_cons_of_mem _ hx)) hrest
      exact ⟨rfl, rfl⟩

namespace Transaction

/-! ## Pieces -/

/-- Pieces in a row, each closed by a null character. -/
def closed (pieces : List (List Char)) : List Char := pieces.flatMap (· ++ ['\x00'])

theorem closed_cons (piece : List Char) (pieces : List (List Char)) :
    closed (piece :: pieces) = piece ++ '\x00' :: closed pieces := by
  simp [closed]

theorem closed_append (l m : List (List Char)) : closed (l ++ m) = closed l ++ closed m :=
  List.flatMap_append

/-- A piece that can be told from what does not begin like it. -/
def Begun (begins : Char → Prop) (piece : List Char) : Prop :=
  '\x00' ∉ piece ∧ ∃ c, piece.head? = some c ∧ begins c

/-- Pieces can be read off a text up to where it goes on with something else. -/
theorem closed_unique {begins : Char → Prop} {l m : List (List Char)} {r s : List Char}
    (hl : ∀ piece ∈ l, Begun begins piece) (hm : ∀ piece ∈ m, Begun begins piece)
    (hr : ∀ c, r.head? = some c → ¬ begins c) (hs : ∀ c, s.head? = some c → ¬ begins c)
    (h : closed l ++ r = closed m ++ s) : l = m ∧ r = s := by
  have hstart {piece rest : List Char} {pieces : List (List Char)} (hpiece : Begun begins piece)
      (hrest : rest = closed (piece :: pieces) ++ s ∨ rest = closed (piece :: pieces) ++ r) :
      ∃ c, rest.head? = some c ∧ begins c := by
    obtain ⟨-, c, hc, hbegins⟩ := hpiece
    refine ⟨c, ?_, hbegins⟩
    rcases hrest with rfl | rfl <;> simp [closed_cons, hc]
  induction l generalizing m with
  | nil =>
    cases m with
    | nil => exact ⟨rfl, h⟩
    | cons piece m =>
      obtain ⟨c, hc, hbegins⟩ := hstart (hm piece List.mem_cons_self) (.inl h)
      exact absurd hbegins (hr c hc)
  | cons piece l ih =>
    cases m with
    | nil =>
      obtain ⟨c, hc, hbegins⟩ := hstart (hl piece List.mem_cons_self) (.inr h.symm)
      exact absurd hbegins (hs c hc)
    | cons other m =>
      rw [closed_cons, closed_cons, List.append_assoc, List.append_assoc] at h
      -- the first null character closes the first piece on either side
      obtain ⟨rfl, hrest⟩ := split_unique (P := (· ≠ '\x00'))
        (fun c hc heq => (hl piece List.mem_cons_self).1 (heq ▸ hc))
        (fun c hc heq => (hm other List.mem_cons_self).1 (heq ▸ hc))
        (fun c hc => by simpa using hc.symm) (fun c hc => by simpa using hc.symm) h
      obtain ⟨rfl, rfl⟩ := ih (fun x hx => hl x (List.mem_cons_of_mem _ hx))
        (fun x hx => hm x (List.mem_cons_of_mem _ hx)) (List.cons.inj hrest).2
      exact ⟨rfl, rfl⟩

/-! ## The pieces of a signature -/

/-- An id after the letter that tells what it is listed for. -/
def idPiece (letter : Char) (id : EntityId) : List Char := letter :: id.toList

def fieldPiece (field : String × PropertyValue) : List Char :=
  field.1.toList ++
    match field.2 with
    | some value => '\x01' :: value.toList
    | none => ['\x02']

def deltaPieces (d : EntityId × Properties) : List (List Char) :=
  idPiece 'p' d.1 :: d.2.entries.map fieldPiece

theorem toList_fieldSignature (field : String × PropertyValue) :
    (fieldSignature field).toList = '\x00' :: fieldPiece field := by
  obtain ⟨name, value⟩ := field
  cases value <;> simp [fieldSignature, fieldPiece]

theorem toList_fieldSignatures (fields : List (String × PropertyValue)) :
    (String.join (fields.map fieldSignature)).toList ++ ['\x00'] =
      '\x00' :: closed (fields.map fieldPiece) := by
  induction fields with
  | nil => rfl
  | cons field rest ih =>
    rw [List.map_cons, String.join_cons, String.toList_append, List.append_assoc, ih,
      toList_fieldSignature, List.map_cons, closed_cons, List.cons_append]

theorem toList_joinIds (letter : Char) (ids : List EntityId) :
    (String.join (ids.map fun id => letter.toString ++ id ++ "\x00")).toList =
      closed (ids.map (idPiece letter)) := by
  induction ids with
  | nil => rfl
  | cons id rest ih =>
    rw [List.map_cons, String.join_cons, String.toList_append, ih, List.map_cons, closed_cons]
    simp [idPiece]

theorem toList_joinDeltas (deltas : List (EntityId × Properties)) :
    (String.join (deltas.map fun d =>
      "p" ++ d.1 ++ String.join (d.2.entries.map fieldSignature) ++ "\x00")).toList =
      closed (deltas.flatMap deltaPieces) := by
  induction deltas with
  | nil => rfl
  | cons d rest ih =>
    rw [List.map_cons, String.join_cons, String.toList_append, ih, List.flatMap_cons,
      closed_append]
    have hfields := toList_fieldSignatures d.2.entries
    simp only [String.toList_append, List.append_assoc]
    show _ ++ (_ ++ (_ ++ (['\x00'] ++ _))) = _
    rw [← List.append_assoc _ ['\x00'], hfields, deltaPieces, closed_cons]
    simp [idPiece]

theorem toList_signature (t : Transaction) :
    t.signature.toList =
      closed ((sortTexts t.modified.ids).map (idPiece 'm') ++ t.deleted.keys.map (idPiece 'd')) ++
        closed (t.deltas.entries.flatMap deltaPieces) := by
  rw [signature, String.toList_append, String.toList_append, toList_joinDeltas, closed_append,
    ← toList_joinIds, ← toList_joinIds]
  rfl

/-! ## Reading a signature -/

/-- Two transactions have the same changes pending. -/
structure SameChanges (t u : Transaction) : Prop where
  modified : ∀ id, t.modified.contains id = u.modified.contains id
  deleted : t.deleted = u.deleted
  deltas : t.deltas = u.deltas

/-- No id to put or to take away has a null character. -/
structure Clear (t : Transaction) : Prop where
  modified : ∀ id ∈ t.modified.ids, '\x00' ∉ id.toList
  deleted : ∀ id ∈ t.deleted.keys, '\x00' ∉ id.toList

/-- A delta without the characters that part the pieces of a signature, where they would be
mistaken. -/
structure LegibleDelta (d : EntityId × Properties) : Prop where
  id : '\x00' ∉ d.1.toList ∧ '\x01' ∉ d.1.toList ∧ '\x02' ∉ d.1.toList
  fields : ∀ field ∈ d.2.entries, '\x00' ∉ field.1.toList ∧ '\x01' ∉ field.1.toList ∧
    '\x00' ∉ (field.2.getD "").toList

/-- Nothing pending has one of these characters. -/
structure Legible (t : Transaction) : Prop extends Clear t where
  deltas : ∀ d ∈ t.deltas.entries, LegibleDelta d

instance (t : Transaction) : Decidable t.Clear :=
  decidable_of_iff ((∀ id ∈ t.modified.ids, '\x00' ∉ id.toList) ∧
    ∀ id ∈ t.deleted.keys, '\x00' ∉ id.toList) ⟨fun h => ⟨h.1, h.2⟩, fun h => ⟨h.1, h.2⟩⟩

instance (d : EntityId × Properties) : Decidable (LegibleDelta d) :=
  decidable_of_iff (('\x00' ∉ d.1.toList ∧ '\x01' ∉ d.1.toList ∧ '\x02' ∉ d.1.toList) ∧
    ∀ field ∈ d.2.entries, '\x00' ∉ field.1.toList ∧ '\x01' ∉ field.1.toList ∧
      '\x00' ∉ (field.2.getD "").toList) ⟨fun h => ⟨h.1, h.2⟩, fun h => ⟨h.1, h.2⟩⟩

instance (t : Transaction) : Decidable t.Legible :=
  decidable_of_iff (t.Clear ∧ ∀ d ∈ t.deltas.entries, LegibleDelta d)
    ⟨fun h => ⟨h.1, h.2⟩, fun h => ⟨h.1, h.2⟩⟩

variable {t u : Transaction}

theorem mem_iff_of_sortTexts_eq {l m : List String} (h : sortTexts l = sortTexts m)
    (text : String) : text ∈ l ↔ text ∈ m :=
  (sortBy_perm l).mem_iff.symm.trans ((iff_of_eq (congrArg (text ∈ ·) h)).trans
    (sortBy_perm m).mem_iff)

theorem contains_modified_eq (h : sortTexts t.modified.ids = sortTexts u.modified.ids)
    (id : EntityId) : t.modified.contains id = u.modified.contains id := by
  rw [Bool.eq_iff_iff, ← Index.mem_ids_iff, ← Index.mem_ids_iff]
  exact mem_iff_of_sortTexts_eq h id

theorem idPiece_injective (letter : Char) : Function.Injective (idPiece letter) :=
  fun _ _ h => String.toList_inj.1 (List.cons.inj h).2

/-- Whether a piece lists an id to put or to take away. -/
def listsId (c : Char) : Prop := c = 'm' ∨ c = 'd'

theorem Clear.begun (h : t.Clear) {piece : List Char}
    (hpiece : piece ∈ (sortTexts t.modified.ids).map (idPiece 'm') ++
      t.deleted.keys.map (idPiece 'd')) : Begun listsId piece := by
  rcases List.mem_append.1 hpiece with hpiece | hpiece
  · obtain ⟨id, hid, rfl⟩ := List.mem_map.1 hpiece
    have hfree := h.modified id ((sortBy_perm _).mem_iff.1 hid)
    exact ⟨by simpa [idPiece] using hfree, 'm', rfl, .inl rfl⟩
  · obtain ⟨id, hid, rfl⟩ := List.mem_map.1 hpiece
    exact ⟨by simpa [idPiece] using h.deleted id hid, 'd', rfl, .inr rfl⟩

/-- What is recorded of fields does not begin like an id to put or to take away. -/
theorem not_listsId_deltas (t : Transaction) {c : Char}
    (h : (closed (t.deltas.entries.flatMap deltaPieces)).head? = some c) : ¬ listsId c := by
  cases hentries : t.deltas.entries with
  | nil =>
    rw [hentries] at h
    cases h
  | cons d rest =>
    rw [hentries, List.flatMap_cons, deltaPieces, List.cons_append, closed_cons, idPiece,
      List.cons_append, List.head?_cons] at h
    cases h
    simp [listsId]

/-- The parts of a signature can be told apart where no id has a null character. -/
theorem parts_eq_of_signature_eq (ht : t.Clear) (hu : u.Clear)
    (h : t.signature = u.signature) :
    sortTexts t.modified.ids = sortTexts u.modified.ids ∧ t.deleted.keys = u.deleted.keys ∧
      closed (t.deltas.entries.flatMap deltaPieces) =
        closed (u.deltas.entries.flatMap deltaPieces) := by
  have htexts := congrArg String.toList h
  rw [toList_signature, toList_signature] at htexts
  obtain ⟨hids, hdeltas⟩ := closed_unique (fun _ => ht.begun) (fun _ => hu.begun)
    (fun _ => t.not_listsId_deltas) (fun _ => u.not_listsId_deltas) htexts
  have hput {ids : List EntityId} : ∀ piece ∈ ids.map (idPiece 'm'), piece.head? = some 'm' := by
    simp [idPiece]
  have htaken {ids : List EntityId} :
      ∀ piece, (ids.map (idPiece 'd')).head? = some piece → ¬ piece.head? = some 'm' := by
    intro piece hpiece
    obtain ⟨id, -, rfl⟩ := List.mem_map.1 (List.mem_of_mem_head? hpiece)
    simp [idPiece]
  obtain ⟨hmodified, hdeleted⟩ := split_unique hput hput htaken htaken hids
  exact ⟨(List.map_inj_right fun _ _ => @idPiece_injective 'm' _ _).1 hmodified,
    (List.map_inj_right fun _ _ => @idPiece_injective 'd' _ _).1 hdeleted, hdeltas⟩

theorem eq_of_keys_eq {s s' : OrderedSet} (h : s.keys = s'.keys) : s = s' := by
  refine OrderedMap.ext_contains fun item => ?_
  rw [Bool.eq_iff_iff, ← OrderedMap.mem_keys_iff, ← OrderedMap.mem_keys_iff, h]

/-- The same signature tells of the same ids. -/
theorem ids_eq_of_signature_eq (ht : t.Clear) (hu : u.Clear) (h : t.signature = u.signature) :
    (∀ id, t.modified.contains id = u.modified.contains id) ∧ t.deleted = u.deleted := by
  obtain ⟨hmodified, hdeleted, -⟩ := parts_eq_of_signature_eq ht hu h
  exact ⟨contains_modified_eq hmodified, eq_of_keys_eq hdeleted⟩

/-! ## Reading the recorded fields -/

/-- Whether a piece holds a field. -/
def holdsField (piece : List Char) : Prop := '\x01' ∈ piece ∨ '\x02' ∈ piece

theorem holdsField_fieldPiece (field : String × PropertyValue) : holdsField (fieldPiece field) := by
  obtain ⟨name, value⟩ := field
  cases value <;> simp [holdsField, fieldPiece]

theorem LegibleDelta.not_holdsField {d : EntityId × Properties} (h : LegibleDelta d) :
    ¬ holdsField (idPiece 'p' d.1) := by
  simp [holdsField, idPiece, h.id.2.1, h.id.2.2]

/-- Fields can be read off their pieces. -/
theorem eq_of_fieldPiece_eq {field other : String × PropertyValue}
    (hfield : '\x01' ∉ field.1.toList) (hother : '\x01' ∉ other.1.toList)
    (h : fieldPiece field = fieldPiece other) : field = other := by
  obtain ⟨name, value⟩ := field
  obtain ⟨name', value'⟩ := other
  have hnull {name : String} (h : '\x01' ∉ name.toList) : '\x01' ∉ fieldPiece (name, none) := by
    simpa [fieldPiece] using h
  have htext (name text : String) : '\x01' ∈ fieldPiece (name, some text) := by simp [fieldPiece]
  cases value with
  | none =>
    cases value' with
    | none => exact Prod.ext (String.toList_inj.1 (List.append_cancel_right h)) rfl
    | some text' => exact absurd (h ▸ htext name' text') (hnull hfield)
  | some text =>
    cases value' with
    | none => exact absurd (h ▸ htext name text) (hnull hother)
    | some text' =>
      obtain ⟨hname, hvalue⟩ := split_unique (P := (· ≠ '\x01'))
        (fun c hc heq => hfield (heq ▸ hc)) (fun c hc heq => hother (heq ▸ hc))
        (fun c hc => by simpa using hc.symm) (fun c hc => by simpa using hc.symm) h
      exact Prod.ext (String.toList_inj.1 hname)
        (congrArg some (String.toList_inj.1 (List.cons.inj hvalue).2))

theorem fields_eq_of_pieces_eq {l m : List (String × PropertyValue)}
    (hl : ∀ field ∈ l, '\x01' ∉ field.1.toList) (hm : ∀ field ∈ m, '\x01' ∉ field.1.toList)
    (h : l.map fieldPiece = m.map fieldPiece) : l = m := by
  induction l generalizing m with
  | nil => exact (List.map_eq_nil_iff.1 h.symm).symm
  | cons field l ih =>
    cases m with
    | nil => cases h
    | cons other m =>
      obtain ⟨hfirst, hrest⟩ := List.cons.inj h
      rw [eq_of_fieldPiece_eq (hl field List.mem_cons_self) (hm other List.mem_cons_self) hfirst,
        ih (fun x hx => hl x (List.mem_cons_of_mem _ hx))
          (fun x hx => hm x (List.mem_cons_of_mem _ hx)) hrest]

/-- The pieces of a delta go on to the next piece that holds no field. -/
theorem deltas_eq_of_pieces_eq {l m : List (EntityId × Properties)}
    (hl : ∀ d ∈ l, LegibleDelta d) (hm : ∀ d ∈ m, LegibleDelta d)
    (h : l.flatMap deltaPieces = m.flatMap deltaPieces) : l = m := by
  have hnext {rest : List (EntityId × Properties)} (hrest : ∀ d ∈ rest, LegibleDelta d) :
      ∀ piece, (rest.flatMap deltaPieces).head? = some piece → ¬ holdsField piece := by
    intro piece hpiece
    cases rest with
    | nil => cases hpiece
    | cons d rest =>
      cases hpiece
      exact (hrest d List.mem_cons_self).not_holdsField
  have hfields (d : EntityId × Properties) :
      ∀ piece ∈ d.2.entries.map fieldPiece, holdsField piece := by
    intro piece hpiece
    obtain ⟨field, -, rfl⟩ := List.mem_map.1 hpiece
    exact holdsField_fieldPiece field
  induction l generalizing m with
  | nil =>
    cases m with
    | nil => rfl
    | cons d m => cases h
  | cons d l ih =>
    cases m with
    | nil => cases h
    | cons e m =>
      have hl' := fun x hx => hl x (List.mem_cons_of_mem _ hx)
      have hm' := fun x hx => hm x (List.mem_cons_of_mem _ hx)
      obtain ⟨hid, hrest⟩ := List.cons.inj h
      obtain ⟨hd, hrest⟩ := split_unique (hfields d) (hfields e) (hnext hl') (hnext hm') hrest
      have hentries : d.2.entries = e.2.entries := fields_eq_of_pieces_eq
        (fun field hf => ((hl d List.mem_cons_self).fields field hf).2.1)
        (fun field hf => ((hm e List.mem_cons_self).fields field hf).2.1) hd
      have hfirst : d = e := Prod.ext (idPiece_injective 'p' hid) (OrderedMap.ext hentries)
      rw [hfirst, ih hl' hm' hrest]

theorem Legible.begun (h : t.Legible) {piece : List Char}
    (hpiece : piece ∈ t.deltas.entries.flatMap deltaPieces) : Begun (fun _ => True) piece := by
  obtain ⟨d, hd, hpiece⟩ := List.mem_flatMap.1 hpiece
  have hlegible := h.deltas d hd
  rcases List.mem_cons.1 hpiece with rfl | hpiece
  · exact ⟨by simpa [idPiece] using hlegible.id.1, 'p', rfl, trivial⟩
  · obtain ⟨⟨name, value⟩, hfield, rfl⟩ := List.mem_map.1 hpiece
    have hfree := hlegible.fields _ hfield
    refine ⟨?_, ?_⟩
    · cases value <;> simp_all [fieldPiece]
    · have hne : fieldPiece (name, value) ≠ [] := by cases value <;> simp [fieldPiece]
      exact ⟨_, List.head?_eq_some_head hne, trivial⟩

theorem SameChanges.signature_eq (h : t.SameChanges u) : t.signature = u.signature := by
  have hids : sortTexts t.modified.ids = sortTexts u.modified.ids := by
    refine sortTexts_eq_of_perm ((List.perm_ext_iff_of_nodup (Index.nodup_ids _)
      (Index.nodup_ids _)).2 fun id => ?_)
    rw [Index.mem_ids_iff, Index.mem_ids_iff, h.modified]
  rw [signature, signature, hids, h.deleted, h.deltas]

/-- Legible transactions have the same signature exactly if they have the same changes pending. -/
theorem signature_eq_iff (ht : t.Legible) (hu : u.Legible) :
    t.signature = u.signature ↔ t.SameChanges u := by
  constructor
  · intro h
    obtain ⟨hmodified, hdeleted⟩ := ids_eq_of_signature_eq ht.toClear hu.toClear h
    obtain ⟨-, -, htexts⟩ := parts_eq_of_signature_eq ht.toClear hu.toClear h
    have hpieces := (closed_unique (r := []) (s := []) (fun _ => ht.begun) (fun _ => hu.begun)
      (fun _ h => by cases h) (fun _ h => by cases h) (by simpa using htexts)).1
    exact ⟨hmodified, hdeleted,
      OrderedMap.ext (deltas_eq_of_pieces_eq ht.deltas hu.deltas hpieces)⟩
  · exact SameChanges.signature_eq

end Transaction

/-! ## The end of a repair -/

namespace Work

variable {run : HookRunner} {w w' : Work}

theorem LastPass.ids (h : LastPass run w w') (hw : w.txn.Clear) (hw' : w'.txn.Clear) :
    (∀ id, w.txn.modified.contains id = w'.txn.modified.contains id) ∧
      w.txn.deleted = w'.txn.deleted :=
  Transaction.ids_eq_of_signature_eq hw hw' h.signature.symm

theorem LastPass.changes (h : LastPass run w w') (hw : w.txn.Legible) (hw' : w'.txn.Legible) :
    w.txn.SameChanges w'.txn :=
  (Transaction.signature_eq_iff hw hw').1 h.signature.symm

/-- Among legible working sets the signature tells any two apart. A repair that succeeds is a row of
passes, the last of which leaves the ids and the recorded fields as they were: the ids where none of
them has a null character, and the fields where the working set is legible. -/
theorem repair_ends_unchanged (run : HookRunner) :
    (∀ t u : Transaction, t.Legible → u.Legible → (t.signature = u.signature ↔ t.SameChanges u)) ∧
    ∀ w w' : Work, ensureIntegrity run w = (.ok (), w') →
      ∃ before, Relation.ReflTransGen (NextPass run) w before ∧ LastPass run before w' ∧
        (before.txn.Clear → w'.txn.Clear →
          (∀ id, before.txn.modified.contains id = w'.txn.modified.contains id) ∧
            before.txn.deleted = w'.txn.deleted) ∧
        (before.txn.Legible → w'.txn.Legible → before.txn.SameChanges w'.txn) := by
  refine ⟨fun t u ht hu => Transaction.signature_eq_iff ht hu, fun w w' h => ?_⟩
  obtain ⟨before, hbetween, hlast⟩ := repeatPasses_ok h
  exact ⟨before, hbetween, hlast, hlast.ids, hlast.changes⟩

/-- The check of a probe sets two of its fields. -/
def splitting : Scripts
  | "p", .check =>
    [⟨none, none, false, .set "a" (some "x")⟩, ⟨none, none, false, .set "b" (some "y")⟩]
  | _, _ => []

/-- A probe is to be put, one field of which has a text. -/
def holding (text : String) : Work :=
  ((Store.new .standard (.plain [])).begin "t").onTxn
    (·.recordSnapshot ⟨"p", .probe (OrderedMap.ofList [("a", some text)])⟩)

/-- The first pass splits a plain text, and the second leaves everything as it is. -/
theorem plain_split_is_noticed :
    let run := (Script.hooks .builtIn splitting).runner 1
    let w := holding "x b y"
    let first := (integrityPass run w.beginPass).2.endPass
    ¬ w.txn.SameChanges first.txn ∧
      ∃ w', w.ensureIntegrity run = (.ok (), w') ∧ w'.store.statistics.integrityPasses = 2 ∧
        ∃ before, LastPass run before w' ∧ before.txn.SameChanges w'.txn := by
  intro run w first
  obtain ⟨hiff, hrepair⟩ := repair_ends_unchanged run
  have hstart : w.txn.Legible := by decide +kernel
  have hfirst : first.txn.Legible := by decide +kernel
  have hsignature : w.txn.signature ≠ first.txn.signature := by decide +kernel
  have hagain : (integrityPass run first.beginPass).2.endPass.txn.signature =
      first.txn.signature := by decide +kernel
  have hok : (w.ensureIntegrity run).1 = .ok () := by decide +kernel
  have hend : (w.ensureIntegrity run).2.txn.Legible := by decide +kernel
  have hpasses : (w.ensureIntegrity run).2.store.statistics.integrityPasses = 2 := by
    decide +kernel
  have hcompletes : (integrityPass run w.beginPass).1 = .ok (.setOf ["p"]) := by decide +kernel
  have hcompletes' : (integrityPass run first.beginPass).1 = .ok (.setOf ["p"]) := by
    decide +kernel
  cases hw' : w.ensureIntegrity run with
  | mk result w' =>
    rw [hw'] at hok hend hpasses
    obtain rfl : result = .ok () := hok
    obtain ⟨before, hbetween, hlast, -, hsame⟩ := hrepair w w' hw'
    -- no pass follows on the second, so that the last one is the first or the second
    have hbefore : before.txn.Legible := by
      rcases hbetween.cases_head with rfl | ⟨u, hu, hbetween⟩
      · exact hstart
      · obtain ⟨hu, -⟩ := hu.of_completed hcompletes
        change u = first at hu
        rcases hbetween.cases_head with rfl | ⟨v, hv, -⟩
        · exact hu ▸ hfirst
        · rw [hu] at hv
          obtain ⟨rfl, hdiffers⟩ := hv.of_completed hcompletes'
          exact absurd hagain hdiffers
    exact ⟨fun h => hsignature ((hiff _ _ hstart hfirst).2 h), w', rfl, hpasses, before, hlast,
      hsame hbefore hend⟩

/-- Split at the characters that part two fields in a signature, the text leaves the signature as
it was: the only pass of the commit has changed the recorded fields, and no other follows. -/
theorem split_goes_unnoticed :
    let run := (Script.hooks .builtIn splitting).runner 1
    let w := holding "x\x00b\x01y"
    let (result, repaired) := w.ensureIntegrity run
    let (committed, w') := w.commit run
    result = .ok () ∧ repaired.store.statistics.integrityPasses = 1 ∧
      repaired.txn.signature = w.txn.signature ∧ repaired.txn.deltas ≠ w.txn.deltas ∧
      committed = .ok () ∧ w'.store.statistics.integrityPasses = 1 ∧
      w'.store.backend.memory.applied.map (·.deltas) = [repaired.txn.deltas] := by
  decide +kernel

end Work

end EntityStore
