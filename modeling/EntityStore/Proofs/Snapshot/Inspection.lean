import EntityStore.Proofs.Entity.RoundTrip
import EntityStore.Proofs.Index.Refinement
import EntityStore.Proofs.Snapshot.Reloading
import EntityStore.Snapshot.Inspection
import Mathlib.Algebra.GroupWithZero.Nat
import Mathlib.Data.List.Dedup

/-!
# What an inspection tells

An inspection goes through the table that was loaded. What it tells can be read off the snapshot
itself: how many ids occur, how many of them belong to each type, and which references of the last
maps lead nowhere. These are listed by record and field, each once.

Main statement: `Inspection.tells_exactly`.
-/

namespace EntityStore

/-! ## Dangling references in order -/

/-- One reference comes before another: by record, then by field. -/
def DanglingReference.Before (a b : DanglingReference) : Prop :=
  a.record < b.record ∨ a.record = b.record ∧ a.field < b.field

namespace DanglingReference

variable {a b c : DanglingReference}

theorem notAfter_iff :
    notAfter a b = true ↔ a.record < b.record ∨ a.record = b.record ∧ a.field ≤ b.field := by
  simp [notAfter]

theorem notAfter_total (a b : DanglingReference) : notAfter a b = true ∨ notAfter b a = true := by
  rw [notAfter_iff, notAfter_iff]
  by_cases hlt : a.record < b.record
  · exact .inl (.inl hlt)
  · by_cases heq : a.record = b.record
    · rcases String.le_total a.field b.field with hle | hle
      · exact .inl (.inr ⟨heq, hle⟩)
      · exact .inr (.inr ⟨heq.symm, hle⟩)
    · exact .inr (.inl (OrderedMap.lt_of_not_lt_of_ne hlt heq))

theorem notAfter_trans (h : notAfter a b = true) (h' : notAfter b c = true) :
    notAfter a c = true := by
  rw [notAfter_iff] at *
  rcases h with hlt | ⟨heq, hle⟩
  · rcases h' with hlt' | ⟨heq', -⟩
    · exact .inl (String.lt_trans hlt hlt')
    · exact .inl (heq' ▸ hlt)
  · rcases h' with hlt' | ⟨heq', hle'⟩
    · exact .inl (heq ▸ hlt')
    · exact .inr ⟨heq.trans heq', String.le_trans hle hle'⟩

theorem before_of_notAfter (h : notAfter a b = true)
    (hne : a.record = b.record → a.field ≠ b.field) : a.Before b := by
  rcases notAfter_iff.1 h with hlt | ⟨heq, hle⟩
  · exact .inl hlt
  · refine .inr ⟨heq, Decidable.byContradiction fun hnot => hne heq ?_⟩
    exact String.le_antisymm hle (String.not_lt.1 hnot)

end DanglingReference

/-! ## Going through a table -/

theorem pairwise_filterMap_of_fst {α β : Type} {f : String × α → Option (String × β)}
    (hf : ∀ r d, f r = some d → d.1 = r.1) {l : List (String × α)}
    (h : l.Pairwise fun a b => a.1 < b.1) : (l.filterMap f).Pairwise fun a b => a.1 < b.1 := by
  refine h.filterMap f fun a a' hlt b hb b' hb' => ?_
  rw [hf a b hb, hf a' b' hb']
  exact hlt

namespace Entity

variable {e : Entity} {found : EntityId → Bool} {tag : TypeTag} {type : TypeSchema}
  {fields : Properties}

theorem mem_danglingFields_iff (hbody : e.body = .record tag type fields) {field : String}
    {target : EntityId} {policy : DanglingPolicy} :
    (field, target, policy) ∈ e.danglingFields found ↔
      type.references.find? field = some policy ∧ fields.text? field = some target ∧
        found target = false := by
  simp only [danglingFields, hbody, List.mem_filterMap]
  constructor
  · rintro ⟨⟨other, declared⟩, hentry, hreports⟩
    split at hreports
    · cases hreports
    · rename_i named htext
      split at hreports
      · cases hreports
      · rename_i hlost
        cases hreports
        exact ⟨OrderedMap.mem_entries_iff.1 hentry, htext, Bool.eq_false_iff.2 hlost⟩
  · rintro ⟨hpolicy, htext, hlost⟩
    exact ⟨(field, policy), OrderedMap.mem_entries_iff.2 hpolicy, by simp [htext, hlost]⟩

/-- The fields are gone through in order. -/
theorem pairwise_danglingFields (found : EntityId → Bool) (e : Entity) :
    (e.danglingFields found).Pairwise fun a b => a.1 < b.1 := by
  unfold danglingFields
  split
  · rename_i type schema fields _
    refine pairwise_filterMap_of_fst (fun r d hreports => ?_) schema.references.sorted
    split at hreports
    · cases hreports
    · split at hreports
      · cases hreports
      · cases hreports
        rfl
  · exact .nil

/-- The free fields of a record that shows its own type and id are what it shows besides. -/
theorem Regular.text?_fields (h : e.Regular) (hbody : e.body = .record tag type fields)
    {field : String} {target : String} :
    fields.text? field = some target ↔ Properties.isReserved field = false ∧
      e.properties.find? field = some (some target) := by
  have hfree := (not_hides_iff e).1 h.shows
  rw [free, hbody] at hfree
  have hshown : e.properties = ((Properties.withType .empty tag).withId e.id).merge fields := by
    rw [properties, storeInto, Entity.tag, hbody]
    rfl
  cases hreserved : Properties.isReserved field with
  | true =>
    have hnone : fields.find? field = none := by
      simpa [OrderedMap.contains] using hfree field hreserved
    simp [Properties.text?, hnone]
  | false =>
    rw [hshown, find?_merge_free tag e.id hreserved, Properties.text?, Option.join_eq_some_iff]
    exact (and_iff_right rfl).symm

end Entity

namespace LoadedStore

variable {table : Index} {d : DanglingReference}

theorem mem_danglingIn_iff :
    d ∈ danglingIn table ↔ ∃ e, table.find? d.record = some e ∧ e.tag = d.type ∧
      (d.field, d.target, d.policy) ∈ e.danglingFields table.contains := by
  rw [danglingIn, (sortBy_perm _).mem_iff, List.mem_flatMap]
  simp only [danglingOf, List.mem_map, Index.mem_toList_iff]
  constructor
  · rintro ⟨e, he, parts, hparts, rfl⟩
    exact ⟨e, he, rfl, hparts⟩
  · rintro ⟨e, he, htag, hfields⟩
    have hid := Index.id_of_find? he
    refine ⟨e, hid ▸ he, _, hfields, ?_⟩
    rw [hid, htag]

/-- No field of a record is listed twice. -/
theorem pairwise_danglingIn (table : Index) :
    (danglingIn table).Pairwise DanglingReference.Before := by
  have hsorted : (danglingIn table).Pairwise fun a b => DanglingReference.notAfter a b = true :=
    pairwise_sortBy DanglingReference.notAfter_total DanglingReference.notAfter_trans _
  have hapart : (danglingIn table).Pairwise fun a b => a.record = b.record → a.field ≠ b.field := by
    refine ((sortBy_perm _).pairwise_iff fun h hrecord hfield => h hrecord.symm hfield.symm).2 ?_
    refine List.pairwise_flatMap.2 ⟨fun e _ => ?_, ?_⟩
    · refine List.pairwise_map.2 ((e.pairwise_danglingFields _).imp fun hlt _ heq => ?_)
      exact String.ne_of_lt hlt heq
    · -- what different entities contribute differs in the record
      have hids : table.toList.Pairwise fun e e' => e.id ≠ e'.id :=
        List.pairwise_map.1 (table.map_id_toList ▸ table.nodup_ids)
      refine hids.imp fun hne a ha b hb hrecord => ?_
      obtain ⟨_, -, rfl⟩ := List.mem_map.1 ha
      obtain ⟨_, -, rfl⟩ := List.mem_map.1 hb
      exact absurd hrecord hne
  exact (hsorted.and hapart).imp fun h => DanglingReference.before_of_notAfter h.1 h.2

end LoadedStore

theorem Index.sum_counts (ix : Index) : ix.counts.values.sum = ix.size := by
  simp [counts, size, OrderedMap.values, OrderedMap.mapEntries, List.sum_eq_foldr, List.foldr_map,
    Function.comp_def]

/-! ## What was loaded -/

namespace Snapshot

variable {s : Snapshot} {config : Config} {l : LoadedStore} {id : EntityId} {tag : TypeTag}

/-- The ids that occur, each once. -/
def ids (s : Snapshot) : List EntityId := (s.entities.filterMap Properties.id?).dedup

/-- The last map with an id. -/
def last? (s : Snapshot) (id : EntityId) : Option Properties := (s.mapsOf id).getLast?

/-- A reference of a snapshot leads nowhere: the last map of its record names an id that does not
occur, in a field that the schema declares for the type of this map. -/
def Lacks (s : Snapshot) (d : DanglingReference) : Prop :=
  ∃ p type, s.last? d.record = some p ∧ p.typeTag? = some d.type ∧
    s.schema.find? d.type = some type ∧ type.references.find? d.field = some d.policy ∧
    d.field ≠ "@type" ∧ p.find? d.field = some (some d.target) ∧
    ∀ q ∈ s.entities, q.id? ≠ some d.target

theorem labelled_of_load (h : s.load config = .ok l) : s.Labelled := by
  rw [labelled_iff, Option.eq_none_iff_forall_ne_some]
  intro err hfault
  rw [load_unlabelled hfault] at h
  cases h

theorem table_of_load (h : s.load config = .ok l) :
    (∀ id, (l.table.find? id).map Entity.properties = s.last? id) ∧
    (∀ id e, l.table.find? id = some e → e.Charted s.types) ∧ l.types = s.types := by
  obtain ⟨memory, hloaded, hshown, hcharted⟩ := load_labelled (labelled_of_load h) config
  obtain rfl := Except.ok.inj (hloaded.symm.trans h)
  refine ⟨fun id => ?_, hcharted, rfl⟩
  rw [last?, ← find?_byId, ← hshown, Index.find?_snapshots]
  rfl

theorem contains_iff_of_load (h : s.load config = .ok l) :
    l.table.contains id = true ↔ ∃ p ∈ s.entities, p.id? = some id := by
  rw [Index.contains_eq_isSome, ← Option.isSome_map (f := Entity.properties),
    (table_of_load h).1, last?, List.getLast?_isSome]
  simp [mapsOf]

theorem ids_perm_of_load (h : s.load config = .ok l) : l.table.ids.Perm s.ids := by
  refine (List.perm_ext_iff_of_nodup l.table.nodup_ids (List.nodup_dedup _)).2 fun id => ?_
  rw [Index.mem_ids_iff, contains_iff_of_load h, List.mem_dedup, List.mem_filterMap]

theorem countP_tag_of_load (h : s.load config = .ok l) (tag : TypeTag) :
    l.table.toList.countP (fun e => e.tag = tag) =
      s.ids.countP fun id => (s.last? id).bind Properties.typeTag? = some tag := by
  obtain ⟨hshown, hcharted, -⟩ := table_of_load h
  rw [← (ids_perm_of_load h).countP_eq, ← Index.map_id_toList, List.countP_map]
  refine List.countP_congr fun e he => ?_
  have hfound := Index.mem_toList_iff.1 he
  have hlabels := (hcharted e.id e hfound).regular.labels
  simp [← hshown, hfound, hlabels.1]

theorem find?_schema_iff {type : TypeSchema} {field : String} {policy : DanglingPolicy}
    (hpolicy : type.references.find? field = some policy) :
    s.types.find? tag = some type ↔ s.schema.find? tag = some type := by
  constructor
  · intro h
    refine (find?_types h).resolve_right ?_
    rintro rfl
    cases hpolicy
  · intro h
    rw [types, Schema.find?_internAll, h, Option.some_or]

/-- What a record of a snapshot's types reports: fields that the schema declares for its type, its
labels apart, in which it shows an id that is not found. -/
theorem mem_danglingFields_iff {e : Entity} (hcharted : e.Charted s.types) {found : EntityId → Bool}
    {field : String} {target : EntityId} {policy : DanglingPolicy} :
    (field, target, policy) ∈ e.danglingFields found ↔
      (∃ type, s.schema.find? e.tag = some type ∧ type.references.find? field = some policy) ∧
        Properties.isReserved field = false ∧ e.properties.find? field = some (some target) ∧
        found target = false := by
  obtain ⟨hregular, type, fields, hbody, htype⟩ := hcharted
  rw [Entity.mem_danglingFields_iff hbody, hregular.text?_fields hbody]
  constructor
  · rintro ⟨hpolicy, ⟨hfree, hnames⟩, hlost⟩
    exact ⟨⟨type, (find?_schema_iff hpolicy).1 htype, hpolicy⟩, hfree, hnames, hlost⟩
  · rintro ⟨⟨declared, hschema, hpolicy⟩, hfree, hnames, hlost⟩
    have htypes := (find?_schema_iff hpolicy).2 hschema
    obtain rfl : type = declared := Option.some.inj (htype.symm.trans htypes)
    exact ⟨hpolicy, ⟨hfree, hnames⟩, hlost⟩

/-- What is listed is what leads nowhere. -/
theorem mem_dangling_of_load (h : s.load config = .ok l) {d : DanglingReference} :
    d ∈ l.dangling ↔ s.Lacks d := by
  obtain ⟨hshown, hcharted, -⟩ := table_of_load h
  have hoccurs : l.table.contains d.target = false ↔ ∀ q ∈ s.entities, q.id? ≠ some d.target := by
    rw [Bool.eq_false_iff, Ne, contains_iff_of_load h]
    simp only [not_exists, not_and, Ne]
  rw [LoadedStore.dangling, LoadedStore.mem_danglingIn_iff]
  constructor
  · rintro ⟨e, he, htag, hreports⟩
    have hrecord := hcharted d.record e he
    obtain ⟨⟨type, hschema, hpolicy⟩, hfree, hnames, hlost⟩ :=
      (mem_danglingFields_iff hrecord).1 hreports
    have hlast : s.last? d.record = some e.properties := by rw [← hshown, he, Option.map_some]
    have hfield : d.field ≠ "@type" := by
      intro heq
      rw [heq] at hfree
      cases hfree
    exact ⟨e.properties, type, hlast, htag ▸ hrecord.regular.labels.1, htag ▸ hschema, hpolicy,
      hfield, hnames, hoccurs.1 hlost⟩
  · rintro ⟨p, type, hlast, htag, hschema, hpolicy, hfield, hnames, hlost⟩
    rw [← hshown] at hlast
    obtain ⟨e, he, rfl⟩ := Option.map_eq_some_iff.1 hlast
    have hrecord := hcharted d.record e he
    have hsame : e.tag = d.type := Option.some.inj (hrecord.regular.labels.1.symm.trans htag)
    -- the id of a record is found, so it does not lead nowhere
    have hid : d.field ≠ Properties.idKey := by
      intro heq
      rw [heq, hrecord.regular.find?_id, Index.id_of_find? he] at hnames
      have htarget : d.record = d.target := Option.some.inj (Option.some.inj hnames)
      have hfound : l.table.contains d.record = true := Index.contains_iff_find?.2 ⟨e, he⟩
      have hgone : l.table.contains d.record = false := htarget ▸ hoccurs.2 hlost
      exact Bool.noConfusion (hfound.symm.trans hgone)
    have hfree : Properties.isReserved d.field = false := by
      simp [Properties.isReserved, hid, Properties.typeKey, hfield]
    exact ⟨e, he, hsame, (mem_danglingFields_iff hrecord).2
      ⟨⟨type, hsame ▸ hschema, hpolicy⟩, hfree, hnames, hoccurs.2 hlost⟩⟩

end Snapshot

/-! ## The inspection -/

namespace Inspection

/-- What an inspection has to say of a snapshot. -/
structure Tells (i : Inspection) (s : Snapshot) : Prop where
  entityCount : i.entityCount = s.ids.length
  total : i.types.values.sum = i.entityCount
  /-- The last map of an id decides the type it is counted under. -/
  types : ∀ tag, i.types.find? tag =
    let count := s.ids.countP fun id => (s.last? id).bind Properties.typeTag? = some tag
    if count = 0 then none else some count
  references : ∀ tag, i.references.find? tag =
    ((s.schema.find? tag).map fun type => type.references.keys).filter (· ≠ [])
  dangling : ∀ d, d ∈ i.dangling ↔ s.Lacks d
  ordered : i.dangling.Pairwise DanglingReference.Before

/-- Types that the schema lacks have no references to show. -/
theorem find?_references (path : String) {s : Snapshot} {l : LoadedStore}
    (htypes : l.types = s.types) (tag : TypeTag) :
    (ofLoaded path l).references.find? tag =
      ((s.schema.find? tag).map fun type => type.references.keys).filter (· ≠ []) := by
  rw [ofLoaded, OrderedMap.find?_mapEntries, OrderedMap.find?_filter, htypes, Snapshot.types,
    Schema.find?_internAll]
  cases s.schema.find? tag with
  | none => split <;> rfl
  | some type =>
    rw [Option.some_or]
    by_cases hnone : type.references.entries = []
    · simp [Option.filter, OrderedMap.isEmpty, OrderedMap.keys, hnone]
    · simp [Option.filter, OrderedMap.isEmpty, OrderedMap.keys, hnone]

/-- Of every snapshot that loads, the inspection tells all there is to tell. -/
theorem tells_exactly {s : Snapshot} {config : Config} {l : LoadedStore}
    (h : s.load config = .ok l) (path : String) : (ofLoaded path l).Tells s where
  entityCount := by
    rw [← (Snapshot.ids_perm_of_load h).length_eq, Index.length_ids]
    rfl
  total := l.table.sum_counts
  types tag := by
    rw [← Snapshot.countP_tag_of_load h]
    exact l.table.find?_counts tag
  references := find?_references path (Snapshot.table_of_load h).2.2
  dangling _ := Snapshot.mem_dangling_of_load h
  ordered := LoadedStore.pairwise_danglingIn l.table

/-- A record that is listed a second time under another type, one of an undeclared type, and a type
that declares its labels to be references. -/
def cluttered : Snapshot where
  schema := OrderedMap.ofList
    [("Task", ⟨OrderedMap.ofList
      [("@type", .clear), ("id", .delete), ("next", .clear), ("owner", .delete)]⟩)]
  entities :=
    [OrderedMap.ofList [("@type", some "Draft"), ("id", some "a"), ("next", some "old")],
      OrderedMap.ofList [("@type", some "Task"), ("id", some "b"), ("next", some "gone")],
      OrderedMap.ofList [("@type", some "Draft"), ("id", some "c"), ("owner", some "nobody")],
      OrderedMap.ofList
        [("@type", some "Task"), ("id", some "a"), ("next", some "b"), ("owner", some "nobody")],
      OrderedMap.ofList [("@type", some "Task"), ("id", some "d"), ("next", none)]]

/-- Two references lead nowhere; what the draft of `a` said and what `c` says does not count. -/
theorem cluttered_is_told : ∃ l, cluttered.load .standard = .ok l ∧
    (ofLoaded "tasks.json" l).Tells cluttered ∧ (ofLoaded "tasks.json" l).entityCount = 4 ∧
    (ofLoaded "tasks.json" l).dangling =
      [⟨"a", "Task", "owner", "nobody", .delete⟩, ⟨"b", "Task", "next", "gone", .clear⟩] := by
  have hevaluated : (cluttered.load .standard).toOption.map
      (fun l => ((ofLoaded "tasks.json" l).entityCount, (ofLoaded "tasks.json" l).dangling)) =
        some (4, [⟨"a", "Task", "owner", "nobody", .delete⟩,
          ⟨"b", "Task", "next", "gone", .clear⟩]) := by
    decide +kernel
  cases hl : cluttered.load .standard with
  | error err =>
    rw [hl] at hevaluated
    cases hevaluated
  | ok l =>
    rw [hl] at hevaluated
    have hboth := Option.some.inj hevaluated
    exact ⟨l, rfl, tells_exactly hl "tasks.json", congrArg Prod.fst hboth, congrArg Prod.snd hboth⟩

end Inspection

end EntityStore
