import EntityStore.Proofs.Backend.Receiving
import EntityStore.Proofs.Session.Publication

/-!
# Bringing entities back

The property map of an entity is its snapshot, and a registry brings the entity back from it. Each
kind writes its map and reads it on its own terms: a reference that is not there is null, a counter
is a decimal numeral, a record has whatever fields it was given. An entity comes back as it was if
no free field stands in the place of its type or its id (`Entity.Presentable`), and so it is with
whatever has read a map. The map itself need not come back: a numeral may be read with a sign or
with leading zeros, and is written without them.

Main statement: `Registry.snapshots_round_trip`.
-/

namespace EntityStore

/-! ## Numerals -/

namespace Text

theorem digitValue?_of_isDigit {c : Char} (h : c.isDigit = true) :
    digitValue? c = some (c.toNat - '0'.toNat) := by
  rw [Char.isDigit, Bool.and_eq_true, decide_eq_true_iff, decide_eq_true_iff] at h
  exact if_pos h

theorem le_ofDigitChars (digits : List Char) (acc : Nat) :
    acc ≤ Nat.ofDigitChars 10 digits acc := by
  induction digits generalizing acc with
  | nil => exact Nat.le_refl _
  | cons c rest ih =>
    rw [Nat.ofDigitChars_cons]
    exact Nat.le_trans (by omega) (ih _)

/-- Digits are read as the number that they stand for, if it is within the bound. -/
theorem readDigits_eq_ok {bound : Nat} {digits : List Char} {acc : Nat}
    (hdigits : ∀ c ∈ digits, c.isDigit = true) (overflow : NumeralError)
    (h : Nat.ofDigitChars 10 digits acc ≤ bound) :
    readDigits bound overflow acc digits = .ok (Nat.ofDigitChars 10 digits acc) := by
  induction digits generalizing acc with
  | nil => rfl
  | cons c rest ih =>
    rw [Nat.ofDigitChars_cons] at h ⊢
    have hsofar := Nat.le_trans (le_ofDigitChars rest _) h
    rw [readDigits, digitValue?_of_isDigit (hdigits c List.mem_cons_self)]
    dsimp only
    rw [if_neg (by omega), Nat.mul_comm acc]
    exact ih (fun c hc => hdigits c (List.mem_cons_of_mem _ hc)) h

theorem readNatural_toString {max n : Nat} (h : n ≤ max) :
    readNatural max (toString n) = .ok n := by
  have hdigits (c : Char) (hc : c ∈ Nat.toDigits 10 n) : c.isDigit = true :=
    Nat.isDigit_of_mem_toDigits (by decide) (by decide) hc
  have hvalue : Nat.ofDigitChars 10 (Nat.toDigits 10 n) 0 = n :=
    Nat.ofDigitChars_toDigits (by decide) (by decide)
  rw [readNatural, Nat.toString_eq_repr, Nat.toList_repr]
  -- the numeral is not empty and begins with a digit, so only the last case is left
  split
  · rename_i hnil
    exact absurd hnil Nat.toDigits_ne_nil
  · rename_i hplus
    exact absurd (hdigits '+' (by simp [hplus])) (by decide)
  · rename_i hplus
    exact absurd (hdigits '+' (by simp [hplus])) (by decide)
  · rw [readDigits_eq_ok hdigits _ (by rwa [hvalue]), hvalue]

theorem readWord_toString (n : UInt64) : readWord (toString n.toNat) = .ok n := by
  have hmax : n.toNat ≤ maxWord := Nat.le_sub_one_of_lt n.toNat_lt_size
  rw [readWord, readNatural_toString hmax]
  exact congrArg Except.ok (UInt64.ofNat_toNat)

end Text

/-! ## Entities that show themselves in full -/

@[simp] theorem Body.blank_blank (b : Body) : b.blank.blank = b.blank := by cases b <;> rfl

namespace Entity

/-- An entity that its property map shows in full: no free field stands in the place of its type or
its id, and what is read as a number is one. -/
structure Presentable (e : Entity) : Prop where
  shows : ∀ field, ¬ e.Hides field
  accepts : e.body.Accepts e.properties

variable {e e' : Entity} {p : Properties}

theorem typeTag?_properties (h : ∀ field, ¬ e.Hides field) :
    e.properties.typeTag? = some e.tag :=
  Option.join_eq_some_iff.2 (find?_typeKey (h _))

theorem id?_properties (h : ∀ field, ¬ e.Hides field) : e.properties.id? = some e.id :=
  Option.join_eq_some_iff.2 (find?_idKey (h _))

theorem not_hides_iff (e : Entity) : (∀ field, ¬ e.Hides field) ↔
    ∀ field, Properties.isReserved field = true → e.free.contains field = false := by
  simp [Hides]

section Free

variable (tag : TypeTag) (id : EntityId) {fields : Properties} {field : String}

theorem find?_merge_free (h : Properties.isReserved field = false) :
    (((Properties.withType .empty tag).withId id).merge fields).find? field =
      fields.find? field := by
  have hne : Properties.typeKey ≠ field ∧ Properties.idKey ≠ field := by
    constructor <;> rintro rfl <;> cases h
  rw [OrderedMap.find?_merge, Properties.withId, Properties.withType, OrderedMap.find?_insert,
    OrderedMap.find?_insert, if_neg hne.2, if_neg hne.1, OrderedMap.find?_empty, Option.or_none]

theorem unreserved_merge_free
    (h : ∀ field, Properties.isReserved field = true → fields.contains field = false) :
    Properties.unreserved (((Properties.withType .empty tag).withId id).merge fields) =
      fields := by
  refine OrderedMap.ext_find? fun field => ?_
  cases hreserved : Properties.isReserved field with
  | false => rw [Properties.find?_unreserved _ hreserved, find?_merge_free tag id hreserved]
  | true =>
    have hnone {p : Properties} (hp : p.contains field = false) : p.find? field = none := by
      simpa [OrderedMap.contains] using hp
    rw [hnone (Properties.contains_unreserved _ hreserved), hnone (h field hreserved)]

end Free

theorem word?_counter (id : EntityId) (partner : Option EntityId) (counter : UInt64) :
    (properties ⟨id, .rival partner counter⟩).word? "counter" = .ok (some counter) := by
  have htext : (properties ⟨id, .rival partner counter⟩).text? "counter" =
      some (toString counter.toNat) := by
    simp [properties, storeInto, Body.storeInto, Properties.text?]
  rw [Properties.word?, Properties.read, htext]
  dsimp only
  rw [Text.readWord_toString]
  rfl

/-- A blank body becomes the entity's own when it reads the entity's property map. -/
theorem Presentable.update_blank (h : e.Presentable) :
    e.body.blank.update e.properties = (.ok (), e.body) := by
  obtain ⟨hshows, haccepts⟩ := h
  rw [not_hides_iff] at hshows
  obtain ⟨id, body⟩ := e
  cases body with
  | record type schema fields =>
    exact congrArg (fun fields => (Except.ok (), Body.record type schema fields))
      (unreserved_merge_free type id hshows)
  | probe fields =>
    obtain ⟨read, hread⟩ := haccepts
    have hfields : Properties.unreserved _ = fields :=
      unreserved_merge_free Kind.probe.tag id hshows
    rw [Body.blank, Body.initial, Body.update, hread]
    exact congrArg (fun fields => (Except.ok (), Body.probe fields)) hfields
  | rival partner counter =>
    rw [Body.blank, Body.initial, Body.update, word?_counter]
    simp [properties, storeInto, Body.storeInto, Properties.text?]
  | _ =>
    simp [Body.blank, Body.initial, Body.update, properties, storeInto, Body.storeInto,
      Properties.textD, Properties.text?]

/-! ### Which entities show themselves in full -/

theorem presentable_of_builtIn {kind : Kind} (hkind : kind ∈ Kind.builtIn)
    (h : e.body.kind? = some kind) : e.Presentable := by
  obtain ⟨id, body⟩ := e
  cases body with
  | record type schema fields => cases h
  | probe fields =>
    cases h
    exact absurd hkind (by decide)
  | rival partner counter =>
    exact ⟨fun _ hhides => absurd hhides.2 Bool.false_ne_true, _, word?_counter id partner counter⟩
  | _ => exact ⟨fun _ hhides => absurd hhides.2 Bool.false_ne_true, trivial⟩

theorem presentable_record {type : TypeTag} {schema : TypeSchema} {id : EntityId}
    {fields : Properties}
    (h : ∀ field, Properties.isReserved field = true → fields.contains field = false) :
    Presentable ⟨id, .record type schema fields⟩ :=
  ⟨(not_hides_iff _).2 h, trivial⟩

theorem presentable_probe {id : EntityId} {fields : Properties}
    (h : ∀ field, Properties.isReserved field = true → fields.contains field = false)
    (hnum : ∃ read, fields.word? "num" = .ok read) : Presentable ⟨id, .probe fields⟩ := by
  have hfind : (properties ⟨id, .probe fields⟩).find? "num" = fields.find? "num" :=
    find?_merge_free _ _ (by decide)
  refine ⟨(not_hides_iff _).2 h, ?_⟩
  rwa [Body.Accepts, Properties.word?, Properties.read, Properties.text?, hfind]

/-- What an entity is that has read a map. -/
theorem eq_of_updated (h : e.updated p = .ok e') :
    e.body.Accepts p ∧ e' = ⟨e.id, (e.body.update p).2⟩ := by
  obtain ⟨hid, -, -⟩ := updated_eq_ok h
  refine ⟨(exists_updated_iff hid).1 ⟨e', h⟩, ?_⟩
  unfold updated update at h
  rw [if_pos hid] at h
  revert h
  rcases e.body.update p with ⟨result | result, body⟩
  · intro h
    cases h
  · intro h
    exact (Except.ok.inj h).symm

/-- Whatever map an entity has read, it shows itself in full. -/
theorem presentable_of_updated (h : e.updated p = .ok e') : e'.Presentable := by
  obtain ⟨haccepts, rfl⟩ := eq_of_updated h
  obtain ⟨id, body⟩ := e
  cases body with
  | record type schema fields => exact presentable_record fun _ => p.contains_unreserved
  | probe fields =>
    obtain ⟨read, hread⟩ := haccepts
    have hbody : ((Body.probe fields).update p).2 = .probe p.unreserved := by
      rw [Body.update, hread]
    rw [hbody]
    refine presentable_probe (fun _ => p.contains_unreserved) ⟨read, ?_⟩
    rwa [Properties.word?, Properties.read, Properties.text?, p.find?_unreserved (by decide)]
  | rival partner counter =>
    obtain ⟨read, hread⟩ := haccepts
    have hbody : ((Body.rival partner counter).update p).2 =
        .rival (p.text? "partner") (read.getD 0) := by
      rw [Body.update, hread]
    rw [hbody]
    exact presentable_of_builtIn (by decide) rfl
  | _ => exact presentable_of_builtIn (by decide) rfl

end Entity

/-! ## Changes of records -/

/-- A change that a client makes to a record: the record reads a property map, or has one field
set. -/
inductive Revision where
  | read (p : Properties)
  | set (field : String) (value : PropertyValue)

namespace Revision

def apply : Revision → Entity → Entity
  | read p, e => (e.update p).2
  | set field value, e => e.setField field value

/-- A change that sets neither the type nor the id. -/
def Proper : Revision → Prop
  | read _ => True
  | set field _ => Properties.isReserved field = false

def applyAll (revisions : List Revision) (e : Entity) : Entity :=
  revisions.foldl (fun e revision => revision.apply e) e

end Revision

/-- A record none of whose fields stands in the place of its type or its id. -/
def Entity.RecordOf (type : TypeTag) (schema : TypeSchema) (id : EntityId) (e : Entity) : Prop :=
  ∃ fields, e = ⟨id, .record type schema fields⟩ ∧
    ∀ field, Properties.isReserved field = true → fields.contains field = false

section Revisions

variable {type : TypeTag} {schema : TypeSchema} {id : EntityId} {e : Entity}

theorem Revision.apply_recordOf {revision : Revision} (hproper : revision.Proper)
    (h : e.RecordOf type schema id) : (revision.apply e).RecordOf type schema id := by
  obtain ⟨fields, rfl, hfields⟩ := h
  cases revision with
  | read p =>
    rw [apply, Entity.update]
    split
    · exact ⟨p.unreserved, rfl, fun _ => Properties.contains_unreserved p⟩
    · exact ⟨fields, rfl, hfields⟩
  | set field value =>
    refine ⟨fields.insert field value, rfl, fun other hother => ?_⟩
    have hne : field ≠ other := by
      rintro rfl
      exact absurd (hother.symm.trans hproper) (by simp)
    rw [OrderedMap.contains_insert, hfields other hother]
    simpa using hne

theorem Revision.applyAll_recordOf {revisions : List Revision}
    (hproper : ∀ revision ∈ revisions, revision.Proper) (h : e.RecordOf type schema id) :
    (applyAll revisions e).RecordOf type schema id := by
  induction revisions generalizing e with
  | nil => exact h
  | cons revision rest ih =>
    exact ih (fun r hr => hproper r (List.mem_cons_of_mem _ hr))
      (apply_recordOf (hproper revision List.mem_cons_self) h)

theorem Entity.recordOf_newRecord (type : TypeTag) (schema : TypeSchema) (id : EntityId) :
    (newRecord type schema id).RecordOf type schema id :=
  ⟨.empty, rfl, fun _ _ => rfl⟩

end Revisions

/-! ## Round trips -/

namespace Registry

variable {r : Registry} {e : Entity} {p : Properties}

/-- A registry makes entities of the kind of an entity under its tag and its id, with its schema if
it is a record. -/
def Knows (r : Registry) (e : Entity) : Prop :=
  ∃ made, r.create e.tag e.id = .ok made ∧ made.id = e.id ∧ made.body.blank = e.body.blank

theorem knows_of_makes (h : r.Makes e.tag e.body.blank) : r.Knows e :=
  ⟨_, create_of_makes h e.id, rfl, Body.blank_blank _⟩

/-- Whatever is created has the tag and the id that were asked for. -/
def Faithful (r : Registry) : Prop :=
  ∀ tag id e, r.create tag id = .ok e → e.tag = tag ∧ e.id = id

theorem Regular.faithful (h : r.Regular) : r.Faithful := by
  intro tag id e he
  obtain ⟨body, rfl, htag, -, -⟩ := h.create_eq_ok he
  exact ⟨htag, rfl⟩

theorem materialize_properties (h : e.Presentable) (hknows : r.Knows e) :
    r.materialize e.properties = .ok e := by
  obtain ⟨⟨id, body⟩, hcreate, rfl, hblank⟩ := hknows
  have hid := e.id?_properties h.shows
  rw [materialize, e.typeTag?_properties h.shows, hid]
  dsimp only
  rw [hcreate]
  show Entity.updated e.properties ⟨e.id, body⟩ = .ok e
  rw [← Entity.updated_blank, hblank, Entity.updated, Entity.update, if_pos hid, h.update_blank]

/-- What a property map has become is what its own snapshot becomes. -/
theorem materialize_properties_of_materialize (hr : r.Faithful) (h : r.materialize p = .ok e) :
    r.materialize e.properties = .ok e := by
  obtain ⟨tag, id, made, -, -, hcreate, hupdated⟩ := materialize_eq_ok h
  obtain ⟨rfl, rfl⟩ := hr _ _ _ hcreate
  -- what was made has kept its kind while it read the map, so the registry makes the same again
  obtain ⟨-, hid, hkind⟩ := Entity.updated_eq_ok hupdated
  have htag : e.tag = made.tag := by
    rw [Entity.tag, ← Body.tag_blank, hkind, Body.tag_blank, Entity.tag]
  refine materialize_properties (Entity.presentable_of_updated hupdated)
    ⟨made, ?_, hid.symm, hkind.symm⟩
  rw [htag, hid]
  exact hcreate

/-- Snapshots lose nothing. An entity of a built-in kind, and a record that was changed by reading
maps and setting fields, is brought back as it was by every registry that knows it; and what any
property map has become is brought back from its own snapshot. -/
theorem snapshots_round_trip (r : Registry) :
    (∀ (e : Entity) (kind : Kind), kind ∈ Kind.builtIn → e.body.kind? = some kind → r.Knows e →
      r.materialize e.properties = .ok e) ∧
    (∀ (type : TypeTag) (schema : TypeSchema) (id : EntityId) (revisions : List Revision),
      (∀ revision ∈ revisions, revision.Proper) →
      let e := Revision.applyAll revisions (.newRecord type schema id)
      r.Knows e → r.materialize e.properties = .ok e) ∧
    (r.Faithful → ∀ (p : Properties) (e : Entity), r.materialize p = .ok e →
      r.materialize e.properties = .ok e) := by
  refine ⟨fun e kind hkind hbody => ?_, fun type schema id revisions hproper => ?_,
    fun hr p e => materialize_properties_of_materialize hr⟩
  · exact materialize_properties (Entity.presentable_of_builtIn hkind hbody)
  · obtain ⟨fields, heq, hfields⟩ :=
      Revision.applyAll_recordOf hproper (Entity.recordOf_newRecord type schema id)
    rw [heq]
    exact materialize_properties (Entity.presentable_record hfields)

/-! ### A signed counter and a record that was worked on -/

section Example

def duties : TypeSchema := ⟨OrderedMap.empty.insert "owner" .clear⟩

def tasks : Registry := .standard (OrderedMap.empty.insert "Task" duties)

def tom : Entity := ⟨"tom", .rival (some "jerry") 42⟩

/-- The task is read from a map that says nothing of an owner, and then gets one. -/
def planning : List Revision :=
  [.read (((Properties.withType .empty "Task").withId "plan").insert "title" none),
    .set "owner" (some "tom")]

def plan : Entity := Revision.applyAll planning (.newRecord "Task" duties "plan")

/-- A map with a field that no rival has, and without one that every rival has. -/
def sighting : Properties :=
  (((Properties.withType .empty "Rival").withId "jerry").insert "counter" (some "+007")).insert
    "colour" (some "brown")

theorem tasks_round_trip :
    tasks.Knows tom ∧ tasks.Knows plan ∧ (∀ revision ∈ planning, revision.Proper) ∧
      tasks.Faithful ∧ tasks.materialize sighting = .ok ⟨"jerry", .rival none 7⟩ ∧
      tasks.materialize tom.properties = .ok tom ∧ tasks.materialize plan.properties = .ok plan ∧
      tasks.materialize (Entity.properties ⟨"jerry", .rival none 7⟩) =
        .ok ⟨"jerry", .rival none 7⟩ := by
  have htom : tasks.Knows tom := knows_of_makes ⟨_, rfl, fun _ => rfl⟩
  have hplan : tasks.Knows plan := knows_of_makes ⟨_, rfl, fun _ => rfl⟩
  have hproper : ∀ revision ∈ planning, revision.Proper := by
    simp [planning, Revision.Proper, Properties.isReserved, Properties.typeKey, Properties.idKey]
  have hfaithful : tasks.Faithful := (regular_standard _).faithful
  have hsighting : tasks.materialize sighting = .ok ⟨"jerry", .rival none 7⟩ := by
    decide +kernel
  obtain ⟨hbuiltIn, hrecord, hread⟩ := snapshots_round_trip tasks
  exact ⟨htom, hplan, hproper, hfaithful, hsighting, hbuiltIn tom .rival (by decide) rfl htom,
    hrecord "Task" duties "plan" planning hproper hplan, hread hfaithful sighting _ hsighting⟩

end Example

end Registry

end EntityStore
