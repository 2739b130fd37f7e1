import EntityStore.Backend
import EntityStore.Index.Lemmas
import Mathlib.Data.List.Forall2

/-!
# Receiving property maps

A memory takes in a list of property maps from elsewhere, all of them or none. An entity that is
held under a map's id and type reads the map; otherwise the registry makes a new one that does.
Which way is taken makes no difference to the outcome, as long as the registry knows the entities
that are held: what becomes of a map depends on the map alone, so the last map with an id decides,
and it does not matter whether the maps come together or one at a time.

Main statement: `Memory.receive_takes_all_or_none`.
-/

namespace EntityStore

/-! ## Bodies that have read nothing -/

namespace Body

/-- The body that an entity of the same kind has at first. A record keeps its type and schema. -/
def blank : Body → Body
  | customer .. => initial .customer
  | order .. => initial .order
  | orderLine .. => initial .orderLine
  | attachment .. => initial .attachment
  | node .. => initial .node
  | rival .. => initial .rival
  | record type schema _ => record type schema OrderedMap.empty
  | probe _ => initial .probe

/-- The values of a property map that a body of this kind reads can be read. -/
def Accepts (p : Properties) : Body → Prop
  | rival .. => ∃ read, p.word? "counter" = .ok read
  | probe _ => ∃ read, p.word? "num" = .ok read
  | customer .. | order .. | orderLine .. | attachment .. | node .. | record .. => True

@[simp] theorem tag_blank (b : Body) : b.blank.tag = b.tag := by cases b <;> rfl

@[simp] theorem blank_initial (kind : Kind) : (initial kind).blank = initial kind := by
  cases kind <;> rfl

@[simp] theorem tag_initial (kind : Kind) : (initial kind).tag = kind.tag := by cases kind <;> rfl

theorem blank_update (p : Properties) (b : Body) : (b.update p).2.blank = b.blank := by
  cases b with
  | rival partner counter => cases h : p.word? "counter" <;> simp [update, blank, h]
  | probe fields => cases h : p.word? "num" <;> simp [update, blank, h]
  | _ => rfl

theorem update_ok_iff {p : Properties} {b : Body} : (b.update p).1 = .ok () ↔ b.Accepts p := by
  cases b with
  | rival partner counter => cases h : p.word? "counter" <;> simp [update, Accepts, h]
  | probe fields => cases h : p.word? "num" <;> simp [update, Accepts, h]
  | _ => simp [update, Accepts]

theorem accepts_blank {p : Properties} {b : Body} : b.blank.Accepts p ↔ b.Accepts p := by
  cases b <;> rfl

end Body

namespace Entity

variable {p : Properties} {e e' : Entity}

/-- An entity that reads a map keeps nothing of what it was but its id and its kind. -/
theorem updated_blank (p : Properties) (e : Entity) :
    updated p ⟨e.id, e.body.blank⟩ = e.updated p := by
  obtain ⟨id, body⟩ := e
  by_cases hid : p.id? = some id
  · cases body with
    | rival partner counter =>
      cases h : p.word? "counter" <;>
        simp [updated, update, hid, Body.blank, Body.initial, Body.update, h]
    | probe fields =>
      cases h : p.word? "num" <;>
        simp [updated, update, hid, Body.blank, Body.initial, Body.update, h]
    | _ => simp [updated, update, hid, Body.blank, Body.initial, Body.update]
  · simp [updated, update, hid]

theorem updated_eq_ok (h : e.updated p = .ok e') :
    p.id? = some e.id ∧ e'.id = e.id ∧ e'.body.blank = e.body.blank := by
  unfold updated update at h
  by_cases hid : p.id? = some e.id
  · rw [if_pos hid] at h
    have hblank := Body.blank_update p e.body
    revert h hblank
    rcases e.body.update p with ⟨result | result, body⟩
    · intro h
      cases h
    · rintro h hblank
      cases h
      exact ⟨hid, rfl, hblank⟩
  · rw [if_neg hid] at h
    cases h

theorem exists_updated_iff (hid : p.id? = some e.id) :
    (∃ e', e.updated p = .ok e') ↔ e.body.Accepts p := by
  rw [← Body.update_ok_iff]
  unfold updated update
  rw [if_pos hid]
  rcases e.body.update p with ⟨result | result, body⟩ <;> simp

end Entity

/-! ## Registries of kinds and records -/

namespace Registry

/-- The registry makes entities with one body of a tag, under whatever id. -/
def Makes (r : Registry) (tag : TypeTag) (body : Body) : Prop :=
  ∃ make, r.constructors.find? tag = some make ∧ ∀ id, make id = .ok ⟨id, body⟩

/-- Whatever is registered under a tag makes blank entities with that tag. -/
def Regular (r : Registry) : Prop :=
  ∀ tag make, r.constructors.find? tag = some make →
    ∃ body : Body, body.tag = tag ∧ body.blank = body ∧ ∀ id, make id = .ok ⟨id, body⟩

/-- Every entity of a table is of a kind that is registered under its tag, a record with the schema
that it has. -/
def Covers (r : Registry) (table : Index) : Prop :=
  ∀ id e, table.find? id = some e → r.Makes e.tag e.body.blank

/-- A property map has an id, a registered type and values that the type's kind accepts. -/
def Admits (r : Registry) (p : Properties) : Prop :=
  ∃ id tag body, p.id? = some id ∧ p.typeTag? = some tag ∧ r.Makes tag body ∧ body.Accepts p

/-- What becomes of a property map, whatever is held. -/
def accept (r : Registry) (p : Properties) : Result Entity :=
  if p.id?.isSome then r.materialize p
  else .error (.invalidProperty Properties.idKey "missing id")

/-! ### Which registries are regular -/

theorem regular_empty : empty.Regular := fun _ _ h => by cases h

theorem Regular.register {r : Registry} (h : r.Regular) (kind : Kind) :
    (r.register kind).Regular := by
  intro tag make hmake
  rw [Registry.register, registerWith, OrderedMap.find?_insert] at hmake
  split at hmake
  · rename_i htag
    cases hmake
    exact ⟨Body.initial kind, (Body.tag_initial kind).trans htag, Body.blank_initial kind,
      fun _ => rfl⟩
  · exact h tag make hmake

theorem Regular.registerIfFree {r : Registry} (h : r.Regular) (kind : Kind) :
    (r.registerIfFree kind).Regular := by
  unfold Registry.registerIfFree
  split
  · exact h
  · exact h.register kind

theorem Regular.foldl {step : Registry → Kind → Registry} (kinds : List Kind)
    (hstep : ∀ {r : Registry}, r.Regular → ∀ kind, (step r kind).Regular) {r : Registry}
    (h : r.Regular) : (kinds.foldl step r).Regular := by
  induction kinds generalizing r with
  | nil => exact h
  | cons kind rest ih => exact ih (hstep h kind)

theorem regular_ofSchema (schema : Schema) : (ofSchema schema).Regular := by
  intro tag make hmake
  rw [ofSchema, OrderedMap.find?_mapEntries] at hmake
  obtain ⟨type, -, rfl⟩ := Option.map_eq_some_iff.1 hmake
  exact ⟨.record tag type OrderedMap.empty, rfl, rfl, fun _ => rfl⟩

theorem regular_builtIn : builtIn.Regular := regular_empty.foldl _ fun h => h.register

theorem regular_standard (schema : Schema) : (standard schema).Regular :=
  ((regular_ofSchema schema).foldl _ fun h => h.registerIfFree).register .probe

/-! ### What a registry makes of a map -/

section Accepting

variable {r : Registry} {p : Properties} {e : Entity} {tag : TypeTag} {body : Body}

theorem create_of_makes (h : r.Makes tag body) (id : EntityId) :
    r.create tag id = .ok ⟨id, body⟩ := by
  obtain ⟨make, hmake, hid⟩ := h
  rw [create, hmake]
  exact hid id

theorem updated_eq_materialize (h : r.Makes e.tag e.body.blank) (hid : p.id? = some e.id)
    (htag : p.typeTag? = some e.tag) : e.updated p = r.materialize p := by
  rw [materialize, htag, hid, ← Entity.updated_blank]
  show _ = (r.create e.tag e.id).bind (Entity.updated p)
  rw [create_of_makes h]
  rfl

/-- A map is brought to life by a blank entity of its type that reads it. -/
theorem materialize_eq_ok (h : r.materialize p = .ok e) :
    ∃ tag id made, p.typeTag? = some tag ∧ p.id? = some id ∧ r.create tag id = .ok made ∧
      made.updated p = .ok e := by
  unfold materialize at h
  split at h
  · cases h
  · rename_i tag htag
    split at h
    · cases h
    · rename_i id hid
      cases hcreate : r.create tag id with
      | error err =>
        rw [hcreate] at h
        cases h
      | ok made =>
        rw [hcreate] at h
        exact ⟨tag, id, made, htag, hid, hcreate, h⟩

theorem Regular.create_eq_ok (hr : r.Regular) {id : EntityId} {made : Entity}
    (h : r.create tag id = .ok made) :
    ∃ body : Body, made = ⟨id, body⟩ ∧ body.tag = tag ∧ body.blank = body ∧ r.Makes tag body := by
  rw [create] at h
  split at h
  · cases h
  · rename_i make hmake
    obtain ⟨body, htag, hblank, hmakes⟩ := hr tag make hmake
    rw [hmakes id] at h
    exact ⟨body, (Except.ok.inj h).symm, htag, hblank, make, hmake, hmakes⟩

/-- An accepted map becomes an entity of a registered kind under the map's id. -/
theorem accept_eq_ok (hr : r.Regular) (h : r.accept p = .ok e) :
    r.materialize p = .ok e ∧ p.id? = some e.id ∧ p.typeTag? = some e.tag ∧
      r.Makes e.tag e.body.blank ∧ e.body.Accepts p := by
  unfold accept at h
  split at h
  · refine ⟨h, ?_⟩
    obtain ⟨tag, id, made, htag, hid, hcreate, hupdated⟩ := materialize_eq_ok h
    obtain ⟨body, rfl, rfl, hblank, hmakes⟩ := hr.create_eq_ok hcreate
    have haccepts := (Entity.exists_updated_iff (e := ⟨id, body⟩) hid).1 ⟨e, hupdated⟩
    obtain ⟨-, rfl, hkind⟩ := Entity.updated_eq_ok hupdated
    rw [show e.body.blank = body from hkind.trans hblank]
    have htag' : e.tag = body.tag := by
      rw [Entity.tag, ← Body.tag_blank, hkind, Body.tag_blank]
    refine ⟨hid, htag'.symm ▸ htag, htag'.symm ▸ hmakes, ?_⟩
    rw [← Body.accepts_blank, hkind, Body.accepts_blank]
    exact haccepts
  · cases h

theorem exists_accept_iff (hr : r.Regular) : (∃ e, r.accept p = .ok e) ↔ r.Admits p := by
  constructor
  · rintro ⟨e, he⟩
    obtain ⟨-, hid, htag, hmakes, haccepts⟩ := accept_eq_ok hr he
    exact ⟨e.id, e.tag, e.body.blank, hid, htag, hmakes, Body.accepts_blank.2 haccepts⟩
  · rintro ⟨id, tag, body, hid, htag, hmakes, haccepts⟩
    obtain ⟨e, he⟩ := (Entity.exists_updated_iff (e := ⟨id, body⟩) hid).2 haccepts
    refine ⟨e, ?_⟩
    rw [accept, hid, materialize, htag, hid]
    show (r.create tag id).bind (Entity.updated p) = _
    rw [create_of_makes hmakes]
    exact he

end Accepting

end Registry

/-! ## Receiving -/

/-- The last property map with an id. -/
def Properties.lastWith? (maps : List Properties) (id : EntityId) : Option Properties :=
  (maps.filter fun p => p.id? = some id).getLast?

namespace Registry

variable {r : Registry} {ix : Index}

/-- Entities that maps have become, added to a table, are found where the last map with their id
says, and all others where they were. -/
theorem find?_addAll_accepted (hr : r.Regular) {maps : List Properties} {entities : List Entity}
    (h : List.Forall₂ (fun p e => r.accept p = .ok e) maps entities) (ix : Index) (id : EntityId) :
    (ix.addAll entities).find? id =
      match Properties.lastWith? maps id with
      | some p => (r.accept p).toOption
      | none => ix.find? id := by
  induction h generalizing ix with
  | nil => rfl
  | @cons p e maps entities he _ ih =>
    obtain ⟨-, hid, -⟩ := accept_eq_ok hr he
    rw [Index.addAll, List.foldl_cons, ← Index.addAll, ih, Index.find?_add]
    unfold Properties.lastWith?
    rw [List.filter_cons, hid]
    by_cases heq : e.id = id
    · simp only [heq, decide_true, if_true, List.getLast?_cons]
      cases (maps.filter fun p => p.id? = some id).getLast? with
      | none => simp [he, Except.toOption]
      | some last => rfl
    · simp [heq]

theorem Covers.add (hr : r.Regular) (h : r.Covers ix) {p : Properties} {e : Entity}
    (he : r.accept p = .ok e) : r.Covers (ix.add e) := by
  intro id x hx
  rw [Index.find?_add] at hx
  split at hx
  · cases hx
    exact (accept_eq_ok hr he).2.2.2.1
  · exact h id x hx

end Registry

namespace Memory

variable {r : Registry} {m : Memory}

/-- What is held makes no difference to what becomes of a map. -/
theorem receiveOne_eq_accept (h : r.Covers m.table) (p : Properties) :
    m.receiveOne r p = r.accept p := by
  unfold receiveOne Registry.accept
  cases hid : p.id? with
  | none => rfl
  | some id =>
    simp only [Option.isSome_some, if_true]
    split
    · rename_i held hheld
      obtain ⟨hfound, htag⟩ := Option.filter_eq_some_iff.1 hheld
      obtain rfl := Index.id_of_find? hfound
      exact Registry.updated_eq_materialize (h _ _ hfound) hid (of_decide_eq_true htag).symm
    · rfl

theorem receive_eq (h : r.Covers m.table) (maps : List Properties) :
    m.receive r maps =
      match maps.mapM r.accept with
      | .error err => (.error err, m)
      | .ok entities => (.ok entities.length, { m with table := m.table.addAll entities }) := by
  have hall : m.receiveOne r = r.accept := funext (receiveOne_eq_accept h)
  cases hmaps : maps.mapM r.accept <;> simp [receive, hall, hmaps]

end Memory

/-! ### Lists gone through -/

theorem exists_forall₂_iff {α β : Type} {R : α → β → Prop} {l : List α} :
    (∃ results, List.Forall₂ R l results) ↔ ∀ a ∈ l, ∃ b, R a b := by
  induction l with
  | nil => simp
  | cons a rest ih =>
    rw [List.forall_mem_cons, ← ih]
    constructor
    · rintro ⟨_, h⟩
      cases h with
      | cons hab hrest => exact ⟨⟨_, hab⟩, ⟨_, hrest⟩⟩
    · rintro ⟨⟨b, hab⟩, ⟨results, hrest⟩⟩
      exact ⟨b :: results, .cons hab hrest⟩

/-- A list is gone through with success exactly if a step succeeds at every item. -/
theorem mapM_eq_ok_iff {α β ε : Type} {step : α → Except ε β} {l : List α} {results : List β} :
    l.mapM step = .ok results ↔ List.Forall₂ (fun a b => step a = .ok b) l results := by
  induction l generalizing results with
  | nil =>
    rw [List.mapM_nil, List.forall₂_nil_left_iff]
    exact ⟨fun h => (Except.ok.inj h).symm, fun h => congrArg _ h.symm⟩
  | cons a rest ih =>
    rw [List.mapM_cons, List.forall₂_cons_left_iff]
    constructor
    · intro h
      cases ha : step a with
      | error err =>
        rw [ha] at h
        cases h
      | ok b =>
        cases hrest : rest.mapM step with
        | error err =>
          rw [ha, hrest] at h
          cases h
        | ok others =>
          rw [ha, hrest] at h
          cases h
          exact ⟨b, others, rfl, ih.1 hrest, rfl⟩
    · rintro ⟨b, others, ha, hrest, rfl⟩
      rw [ha, ih.2 hrest]
      rfl

namespace Memory

variable {r : Registry} {m m' : Memory} {maps : List Properties}

/-- Takes in maps one at a time, each as a list of its own. -/
def receiveEach (m : Memory) (r : Registry) (maps : List Properties) : Memory :=
  maps.foldl (fun m p => (m.receive r [p]).2) m

/-- What a memory is after it took in a list of maps. -/
structure Received (r : Registry) (maps : List Properties) (m m' : Memory) : Prop where
  /-- Under the id of a map stands what the registry makes of the last map with it, and it stands
  in no other partition than that of its type. -/
  last : ∀ id p, Properties.lastWith? maps id = some p →
    ∃ e, r.materialize p = .ok e ∧ m'.table.find? id = some e ∧
      ∀ tag part, m'.table.partitions.find? tag = some part → part.contains id = true → tag = e.tag
  others : ∀ id, (∀ p ∈ maps, p.id? ≠ some id) → m'.table.find? id = m.table.find? id
  tableOnly : m' = { m with table := m'.table }

theorem tag_eq_of_contains {ix : Index} {id : EntityId} {e : Entity} (h : ix.find? id = some e)
    {tag : TypeTag} {part : OrderedMap Entity} (hp : ix.partitions.find? tag = some part)
    (hc : part.contains id = true) : tag = e.tag := by
  obtain ⟨own, ho, he⟩ := Index.find?_eq_some_iff.1 h
  exact ix.wellFormed.unique hp ho hc (OrderedMap.contains_iff.2 ⟨e, he⟩)

theorem received_addAll (hr : r.Regular) {entities : List Entity}
    (h : List.Forall₂ (fun p e => r.accept p = .ok e) maps entities) :
    Received r maps m { m with table := m.table.addAll entities } where
  last id p hlast := by
    have hfound := Registry.find?_addAll_accepted hr h m.table id
    have hmem : p ∈ maps := List.mem_of_mem_filter (List.mem_of_getLast? hlast)
    obtain ⟨e, he⟩ := exists_forall₂_iff.1 ⟨entities, h⟩ p hmem
    rw [hlast] at hfound
    simp only [he] at hfound
    exact ⟨e, (Registry.accept_eq_ok hr he).1, hfound, fun _ _ => tag_eq_of_contains hfound⟩
  others id hnone := by
    have hlast : Properties.lastWith? maps id = none := by
      rw [Properties.lastWith?, List.getLast?_eq_none_iff, List.filter_eq_nil_iff]
      exact fun p hp hid => hnone p hp (of_decide_eq_true hid)
    have hfound := Registry.find?_addAll_accepted hr h m.table id
    rw [hlast] at hfound
    exact hfound
  tableOnly := rfl

theorem receive_one (h : r.Covers m.table) (p : Properties) :
    (m.receive r [p]).2 =
      match r.accept p with
      | .error _ => m
      | .ok e => { m with table := m.table.add e } := by
  rw [receive_eq h, List.mapM_cons]
  cases r.accept p <;> rfl

theorem receiveEach_eq (hr : r.Regular) (h : r.Covers m.table) {entities : List Entity}
    (hmaps : List.Forall₂ (fun p e => r.accept p = .ok e) maps entities) :
    m.receiveEach r maps = { m with table := m.table.addAll entities } := by
  induction hmaps generalizing m with
  | nil => rfl
  | cons he _ ih =>
    rw [receiveEach, List.foldl_cons, receive_one h, he]
    exact ih (h.add hr he)

open Classical in
/-- Of maps that come one at a time those that are not admitted are passed over. -/
theorem receiveEach_filter (hr : r.Regular) (h : r.Covers m.table) (maps : List Properties) :
    m.receiveEach r maps = m.receiveEach r (maps.filter fun p => r.Admits p) := by
  induction maps generalizing m with
  | nil => rfl
  | cons p rest ih =>
    rw [receiveEach, List.foldl_cons, receive_one h, List.filter_cons]
    cases hp : r.accept p with
    | error err =>
      have hnot : ¬ r.Admits p := fun hadmits => by
        obtain ⟨e, he⟩ := (Registry.exists_accept_iff hr).2 hadmits
        rw [hp] at he
        cases he
      simp only [hnot, decide_false, Bool.false_eq_true, if_false]
      exact ih h
    | ok e =>
      have hadmits : r.Admits p := (Registry.exists_accept_iff hr).1 ⟨e, hp⟩
      simp only [hadmits, decide_true, if_true]
      rw [receiveEach, List.foldl_cons, receive_one h, hp]
      exact ih (h.add hr hp)

open Classical in
/-- Maps are taken in, all of them, exactly if each has an id, a registered type and values that
its kind accepts. Otherwise the memory stays as it was. The last map with an id decides what is
held under it afterwards, and the maps could as well have come one at a time. Were some of several
maps that come one at a time refused, it is as if only the others had come. -/
theorem receive_takes_all_or_none (hr : r.Regular) (hm : r.Covers m.table)
    (maps : List Properties) :
    ((∃ count, (m.receive r maps).1 = .ok count) ↔ ∀ p ∈ maps, r.Admits p) ∧
    (∀ err, (m.receive r maps).1 = .error err → (m.receive r maps).2 = m) ∧
    (∀ count, (m.receive r maps).1 = .ok count →
      count = maps.length ∧ Received r maps m (m.receive r maps).2 ∧
        m.receiveEach r maps = (m.receive r maps).2) ∧
    m.receiveEach r maps = (m.receive r (maps.filter fun p => r.Admits p)).2 := by
  have hadmits (l : List Properties) :
      (∀ p ∈ l, r.Admits p) ↔ ∃ entities, l.mapM r.accept = .ok entities := by
    simp only [mapM_eq_ok_iff, exists_forall₂_iff, Registry.exists_accept_iff hr]
  refine ⟨?_, ?_, ?_, ?_⟩
  · rw [hadmits, receive_eq hm]
    cases maps.mapM r.accept <;> simp
  · intro err h
    rw [receive_eq hm] at h ⊢
    cases hmaps : maps.mapM r.accept with
    | error _ => rfl
    | ok entities =>
      rw [hmaps] at h
      cases h
  · intro count h
    rw [receive_eq hm] at h ⊢
    cases hmaps : maps.mapM r.accept with
    | error err =>
      rw [hmaps] at h
      cases h
    | ok entities =>
      rw [hmaps] at h
      cases h
      have hall := mapM_eq_ok_iff.1 hmaps
      exact ⟨hall.length_eq.symm, received_addAll hr hall, receiveEach_eq hr hm hall⟩
  · obtain ⟨entities, hmaps⟩ := (hadmits (maps.filter fun p => r.Admits p)).1 fun p hp =>
      of_decide_eq_true (List.mem_filter.1 hp).2
    rw [receiveEach_filter hr hm, receiveEach_eq hr hm (mapM_eq_ok_iff.1 hmaps), receive_eq hm,
      hmaps]

/-! ### A list with an id twice -/

section Example

def chores : Schema := OrderedMap.empty.insert "Task" TypeSchema.empty

def ada : Entity := ⟨"ada", .customer "Ada"⟩

def draft : Entity :=
  ⟨"draft", .record "Task" TypeSchema.empty (OrderedMap.empty.insert "title" (some "Draft"))⟩

def desk : Memory := ofEntities [ada, draft]

/-- The customer becomes a task and then a rival, and the task gets another title. -/
def mail : List Properties :=
  [((Properties.withType .empty "Task").withId "ada").insert "title" (some "Call"),
    ((Properties.withType .empty "Task").withId "draft").insert "title" (some "Print"),
    ((Properties.withType .empty "Rival").withId "ada").insert "counter" (some "7")]

theorem mail_is_taken_in :
    (Registry.standard chores).Regular ∧ (Registry.standard chores).Covers desk.table ∧
      (desk.receive (.standard chores) mail).1 = .ok 3 ∧
      Received (.standard chores) mail desk (desk.receive (.standard chores) mail).2 := by
  have hregular : (Registry.standard chores).Regular := Registry.regular_standard _
  have hcovers : (Registry.standard chores).Covers desk.table := by
    intro id e he
    have hmem := Index.mem_toList_iff.2 (Index.id_of_find? he ▸ he)
    rw [show desk.table.toList = [ada, draft] by decide +kernel] at hmem
    rcases List.mem_pair.1 hmem with rfl | rfl
    · exact ⟨_, rfl, fun _ => rfl⟩
    · exact ⟨_, rfl, fun _ => rfl⟩
  have hcount : (desk.receive (.standard chores) mail).1 = .ok 3 := by decide +kernel
  have hreceived := receive_takes_all_or_none hregular hcovers mail
  exact ⟨hregular, hcovers, hcount, (hreceived.2.2.1 3 hcount).2.1⟩

/-- The customer is a rival now, and no longer a customer or a task. -/
example :
    (desk.receive (.standard chores) mail).2.table.toList.map (fun e => (e.id, e.tag)) =
      [("ada", "Rival"), ("draft", "Task")] := by decide +kernel

end Example

end Memory

end EntityStore
