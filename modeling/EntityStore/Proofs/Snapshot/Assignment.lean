import EntityStore.Snapshot.Apply

/-!
# How assignments are written

An assignment is an id, a point, a field, an equals sign and the text of a value. A text is read as
one exactly if it can be taken apart like this into an id and a field that may be assigned to, which
is possible in one way at most. Other texts are refused, each for the first reason that applies. So
every id can be assigned to that is not empty and has no equals sign.

Main statement: `Assignment.parse_reads_what_is_written`.
-/

namespace EntityStore.Assignment

variable {raw text text' : String} {id id' : EntityId} {field field' : String} {a : Assignment}
  {err : AssignmentError}

/-! ## Texts that fall into three parts -/

/-- A text falls into what stands for an id, a field and a value, whatever these may be. -/
structure Divided (raw : String) (id : EntityId) (field text : String) : Prop where
  spelled : raw = id ++ "." ++ field ++ "=" ++ text
  idNoEquals : '=' ∉ id.toList
  fieldNoPoint : '.' ∉ field.toList
  fieldNoEquals : '=' ∉ field.toList

/-- The three parts are found by splitting at the first equals sign and the last point before. -/
theorem divided_iff : Divided raw id field text ↔
    ∃ target, Text.splitFirst '=' raw.toList = some (target, text.toList) ∧
      Text.splitLast '.' target = some (id.toList, field.toList) := by
  have hspelled : raw = id ++ "." ++ field ++ "=" ++ text ↔
      raw.toList = (id.toList ++ '.' :: field.toList) ++ '=' :: text.toList := by
    rw [← String.toList_inj]
    simp [String.toList_append]
  constructor
  · intro h
    refine ⟨id.toList ++ '.' :: field.toList, Text.splitFirst_eq_some_iff.2 ?_,
      Text.splitLast_eq_some_iff.2 ⟨rfl, h.fieldNoPoint⟩⟩
    exact ⟨hspelled.1 h.spelled, by simp [h.idNoEquals, h.fieldNoEquals]⟩
  · rintro ⟨target, hfirst, hlast⟩
    obtain ⟨hraw, hequals⟩ := Text.splitFirst_eq_some_iff.1 hfirst
    obtain ⟨rfl, hpoint⟩ := Text.splitLast_eq_some_iff.1 hlast
    rw [List.mem_append, List.mem_cons, not_or, not_or] at hequals
    exact ⟨hspelled.2 hraw, hequals.1, hpoint, hequals.2.2⟩

theorem Divided.unique (h : Divided raw id field text) (h' : Divided raw id' field' text') :
    id = id' ∧ field = field' ∧ text = text' := by
  obtain ⟨target, hfirst, hlast⟩ := divided_iff.1 h
  obtain ⟨target', hfirst', hlast'⟩ := divided_iff.1 h'
  obtain ⟨rfl, htext⟩ := Prod.mk.inj (Option.some.inj (hfirst.symm.trans hfirst'))
  obtain ⟨hid, hfield⟩ := Prod.mk.inj (Option.some.inj (hlast.symm.trans hlast'))
  exact ⟨String.toList_inj.1 hid, String.toList_inj.1 hfield, String.toList_inj.1 htext⟩

theorem parse_of_divided (h : Divided raw id field text) :
    parse raw =
      if id = "" ∨ field = "" then .error (.emptyPart raw)
      else if Properties.isReserved field then .error (.reserved field)
      else .ok ⟨id, field, valueOf text⟩ := by
  obtain ⟨target, hfirst, hlast⟩ := divided_iff.1 h
  simp only [parse, hfirst, hlast, String.ofList_toList, String.toList_eq_nil_iff]

/-! ## Assignments and faults -/

/-- A text is an assignment, written out. -/
structure Written (raw : String) (id : EntityId) (field text : String) : Prop extends
    Divided raw id field text where
  idNotEmpty : id ≠ ""
  fieldNotEmpty : field ≠ ""
  fieldFree : field ≠ "id" ∧ field ≠ "@type"

/-- Why a text is no assignment. -/
inductive Fault (raw : String) : AssignmentError → Prop
  | noEquals : '=' ∉ raw.toList → Fault raw (.noEquals raw)
  | noPoint {target text : String} : raw = target ++ "=" ++ text → '=' ∉ target.toList →
      '.' ∉ target.toList → Fault raw (.noPoint target)
  | emptyPart {id field text : String} : Divided raw id field text → id = "" ∨ field = "" →
      Fault raw (.emptyPart raw)
  | reserved {id field text : String} : Divided raw id field text → id ≠ "" →
      field = "id" ∨ field = "@type" → Fault raw (.reserved field)

theorem isReserved_iff : Properties.isReserved field = true ↔ field = "id" ∨ field = "@type" := by
  rw [Properties.isReserved, Bool.or_eq_true, decide_eq_true_iff, decide_eq_true_iff, or_comm]
  rfl

theorem parse_of_written (h : Written raw id field text) :
    parse raw = .ok ⟨id, field, valueOf text⟩ := by
  rw [parse_of_divided h.toDivided, if_neg (not_or.2 ⟨h.idNotEmpty, h.fieldNotEmpty⟩), if_neg]
  rw [isReserved_iff, not_or]
  exact h.fieldFree

theorem parse_of_fault (h : Fault raw err) : parse raw = .error err := by
  cases h with
  | noEquals h => simp only [parse, Text.splitFirst_eq_none_iff.2 h]
  | @noPoint target text hraw hequals hpoint =>
    have hsplit : Text.splitFirst '=' raw.toList = some (target.toList, text.toList) :=
      Text.splitFirst_eq_some_iff.2 ⟨by rw [hraw]; simp [String.toList_append], hequals⟩
    simp only [parse, hsplit, Text.splitLast_eq_none_iff.2 hpoint, String.ofList_toList]
  | emptyPart hdivided hempty => rw [parse_of_divided hdivided, if_pos hempty]
  | @reserved id field text hdivided hid hfield =>
    have hnotEmpty : ¬ (id = "" ∨ field = "") := by
      rintro (rfl | rfl)
      · exact hid rfl
      · simp at hfield
    rw [parse_of_divided hdivided, if_neg hnotEmpty, if_pos (isReserved_iff.2 hfield)]

/-- A text that does not fall into three parts has no equals sign, or no point before the first. -/
theorem fault_or_divided (raw : String) :
    (∃ err, Fault raw err) ∨ ∃ id field text, Divided raw id field text := by
  cases hfirst : Text.splitFirst '=' raw.toList with
  | none => exact .inl ⟨_, .noEquals (Text.splitFirst_eq_none_iff.1 hfirst)⟩
  | some halves =>
    obtain ⟨target, text⟩ := halves
    cases hlast : Text.splitLast '.' target with
    | none =>
      obtain ⟨hraw, hequals⟩ := Text.splitFirst_eq_some_iff.1 hfirst
      have hspelled : raw = String.ofList target ++ "=" ++ String.ofList text := by
        rw [← String.toList_inj, hraw]
        simp [String.toList_append]
      exact .inl ⟨_, .noPoint hspelled (by rwa [String.toList_ofList])
        (by rw [String.toList_ofList]; exact Text.splitLast_eq_none_iff.1 hlast)⟩
    | some halves =>
      obtain ⟨id, field⟩ := halves
      refine .inr ⟨String.ofList id, String.ofList field, String.ofList text, ?_⟩
      exact divided_iff.2 ⟨target, by rw [hfirst, String.toList_ofList],
        by rw [hlast, String.toList_ofList, String.toList_ofList]⟩

/-- Every text is an assignment or has a fault. -/
theorem written_or_fault (raw : String) :
    (∃ id field text, Written raw id field text) ∨ ∃ err, Fault raw err := by
  rcases fault_or_divided raw with hfault | ⟨id, field, text, hdivided⟩
  · exact .inr hfault
  · by_cases hempty : id = "" ∨ field = ""
    · exact .inr ⟨_, .emptyPart hdivided hempty⟩
    · obtain ⟨hid, hfield⟩ := not_or.1 hempty
      by_cases hreserved : field = "id" ∨ field = "@type"
      · exact .inr ⟨_, .reserved hdivided hid hreserved⟩
      · exact .inl ⟨id, field, text, hdivided, hid, hfield, not_or.1 hreserved⟩

/-! ## What is read -/

theorem written_of_parse (h : parse raw = .ok a) : ∃ text, Written raw a.id a.field text ∧
    a.value = if text = "null" then none else some text := by
  rcases written_or_fault raw with ⟨id, field, text, hwritten⟩ | ⟨err, hfault⟩
  · rw [parse_of_written hwritten] at h
    cases h
    exact ⟨text, hwritten, rfl⟩
  · rw [parse_of_fault hfault] at h
    cases h

theorem fault_of_parse (h : parse raw = .error err) : Fault raw err := by
  rcases written_or_fault raw with ⟨id, field, text, hwritten⟩ | ⟨first, hfault⟩
  · rw [parse_of_written hwritten] at h
    cases h
  · rw [parse_of_fault hfault] at h
    cases h
    exact hfault

/-- A text is read as an assignment exactly if it is one, written out, which it is in one way at
most, and refused exactly if it has a fault. The ids that can be assigned to are those that are not
empty and have no equals sign. -/
theorem parse_reads_what_is_written :
    (∀ raw id field value, parse raw = .ok ⟨id, field, value⟩ ↔
      ∃ text, Written raw id field text ∧ value = if text = "null" then none else some text) ∧
    (∀ raw err, parse raw = .error err ↔ Fault raw err) ∧
    (∀ raw id field text id' field' text', Written raw id field text →
      Written raw id' field' text' → id = id' ∧ field = field' ∧ text = text') ∧
    ∀ id, (∃ raw a, parse raw = .ok a ∧ a.id = id) ↔ id ≠ "" ∧ '=' ∉ id.toList := by
  refine ⟨fun raw id field value => ⟨written_of_parse, ?_⟩,
    fun raw err => ⟨fault_of_parse, parse_of_fault⟩,
    fun raw id field text id' field' text' h h' => h.unique h'.toDivided, fun id => ⟨?_, ?_⟩⟩
  · rintro ⟨text, hwritten, rfl⟩
    exact parse_of_written hwritten
  · rintro ⟨raw, a, hparse, rfl⟩
    obtain ⟨text, hwritten, -⟩ := written_of_parse hparse
    exact ⟨hwritten.idNotEmpty, hwritten.idNoEquals⟩
  · rintro ⟨hid, hequals⟩
    have hwritten : Written (id ++ "." ++ "name" ++ "=" ++ "") id "name" "" :=
      ⟨⟨rfl, hequals, by decide, by decide⟩, hid, by decide, by decide⟩
    exact ⟨_, _, parse_of_written hwritten, rfl⟩

/-- The id has points, and the value has points and an equals sign. -/
theorem note_is_read :
    parse "o.1.x.note=a=b.c" = .ok ⟨"o.1.x", "note", some "a=b.c"⟩ ∧
    Written "o.1.x.note=a=b.c" "o.1.x" "note" "a=b.c" ∧
    ∀ id field text, Written "o.1.x.note=a=b.c" id field text →
      "o.1.x" = id ∧ "note" = field ∧ "a=b.c" = text := by
  obtain ⟨hreads, -, hunique, -⟩ := parse_reads_what_is_written
  have hwritten : Written "o.1.x.note=a=b.c" "o.1.x" "note" "a=b.c" :=
    ⟨⟨by decide, by decide, by decide, by decide⟩, by decide, by decide, by decide⟩
  exact ⟨(hreads _ _ _ _).2 ⟨_, hwritten, by decide⟩, hwritten,
    fun id field text h => hunique _ _ _ _ _ _ _ hwritten h⟩

/-- A snapshot of one record, whose id is empty. -/
def nameless : Snapshot where
  schema := .empty
  entities := [.ofList [("@type", some "T"), ("id", some ""), ("name", some "old")]]

/-- The record is loaded and its id has no equals sign, but no assignment is to it. -/
theorem nameless_cannot_be_assigned_to :
    ∃ l e, nameless.load .standard = .ok l ∧ l.table.toList = [e] ∧ '=' ∉ e.id.toList ∧
      parse ".name=x" = .error (.emptyPart ".name=x") ∧
      ∀ raw a, parse raw = .ok a → a.id ≠ e.id := by
  have hloaded : (nameless.load .standard).toOption.map (fun l => l.table.toList) =
      some [⟨"", .record "T" .empty (.ofList [("name", some "old")])⟩] := by decide +kernel
  cases hload : nameless.load .standard with
  | error err =>
    rw [hload] at hloaded
    cases hloaded
  | ok l =>
    rw [hload] at hloaded
    refine ⟨l, _, rfl, Option.some.inj hloaded, by decide, by decide, fun raw a h hid => ?_⟩
    obtain ⟨text, hwritten, -⟩ := written_of_parse h
    exact hwritten.idNotEmpty hid

end EntityStore.Assignment
