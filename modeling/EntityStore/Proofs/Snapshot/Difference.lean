import EntityStore.Proofs.Files.Folder
import EntityStore.Proofs.Snapshot.Edits

/-!
# The change set is the difference

Changing a snapshot succeeds whenever every property map has a type and an id and every assignment
can be read and is to an id that is there. The change set that comes of it is then the exact
difference between the snapshot and what is written.

Main statement: `Apply.change_set_is_the_difference`.
-/

namespace EntityStore

open Repair

theorem OrderedMap.merge_empty {α : Type} (m : OrderedMap α) : m.merge .empty = m := rfl

/-- No assignment that can be read is to the type or the id. -/
theorem Assignment.not_reserved_of_parse {raw : String} {a : Assignment} (h : parse raw = .ok a) :
    Properties.isReserved a.field = false := by
  unfold parse at h
  split at h
  · cases h
  · split at h
    · cases h
    · dsimp only at h
      split at h
      · cases h
      · split at h
        · cases h
        · rename_i hfield
          cases h
          simpa using hfield

theorem exists_of_mem_mapM {α β ε : Type} {step : α → Except ε β} {l : List α} {results : List β}
    (h : l.mapM step = .ok results) {b : β} (hb : b ∈ results) : ∃ a ∈ l, step a = .ok b := by
  induction l generalizing results with
  | nil =>
    cases h
    cases hb
  | cons a rest ih =>
    rw [List.mapM_cons] at h
    cases hfirst : step a with
    | error err =>
      rw [hfirst] at h
      cases h
    | ok first =>
      cases hrest : rest.mapM step with
      | error err =>
        rw [hfirst, hrest] at h
        cases h
      | ok others =>
        rw [hfirst, hrest] at h
        cases h
        rcases List.mem_cons.1 hb with rfl | hb
        · exact ⟨a, List.mem_cons_self, hfirst⟩
        · obtain ⟨x, hx, hstep⟩ := ih hrest hb
          exact ⟨x, List.mem_cons_of_mem _ hx, hstep⟩

theorem ApplyOptions.not_reserved {o : ApplyOptions} {assignments : List Assignment}
    (h : o.assignments = .ok assignments) {a : Assignment} (ha : a ∈ assignments) :
    Properties.isReserved a.field = false := by
  obtain ⟨raw, -, hparse⟩ := exists_of_mem_mapM h ha
  cases hread : Assignment.parse raw with
  | error err =>
    rw [hread] at hparse
    cases hparse
  | ok read =>
    rw [hread] at hparse
    cases hparse
    exact Assignment.not_reserved_of_parse hread

/-- What is known of entities is known of those that a transaction sees. -/
theorem Work.Kept.of_overlay {P : Entity → Prop} {Rel : Option Entity → Entity → Properties → Prop}
    {calls : Callback → Prop} {w : Work} {id : EntityId} {e : Entity} (hw : w.Kept P Rel calls)
    (h : w.overlay id = some e) : P e := by
  unfold overlay at h
  split at h
  · rename_i hput
    cases h
    obtain ⟨-, -, he, -⟩ := hw.pending hput
    exact he
  · split at h
    · cases h
    · exact hw.committed h

namespace Apply

theorem received_of_emit (maxHistory : Nat) (c : ChangeSet) :
    (((Feed.new maxHistory).subscribe.2.emit c).2.drain 0).1 = [{ c with sequence := ⟨1⟩ }] := by
  simp [Feed.new, Feed.subscribe, Feed.emit, Feed.drain, Subscription.deliver, SequenceNumber.next]

variable {types : Schema} {assignments : List Assignment} {memory : Memory}

/-- What changing a loaded store comes to: nothing, where nothing is to be changed, or one change
set which turns what the table showed into what it shows. -/
inductive Changed (types : Schema) (assignments : List Assignment) (repairs : Bool)
    (memory : Memory) (l : LoadedStore) : Option ChangeSet → Prop
  | unchanged : l.table = memory.table → Changed types assignments repairs memory l none
  | written (u : Work) :
      u.Kept (Entity.Charted types) (Drawn types assignments repairs) Callback.Barred →
      u.store.backend.table = memory.table →
      l.table.snapshots = u.txn.changeSet.applyTo memory.table.snapshots →
      Changed types assignments repairs memory l (some { u.txn.changeSet with sequence := ⟨1⟩ })

theorem toLoaded_of_change {l : LoadedStore} {name : String} {deletes : List EntityId}
    {skipIntegrity : Bool} {w' : Work}
    (hchange : change (Hooks.outermost Repair.hooks) assignments deletes
      ((({ l.store with feed := l.store.feed.subscribe.2 } : Store).begin name).onTxn
        fun t => { t with ensureIntegrity := !skipIntegrity }) = (.ok (), w')) :
    toLoaded name assignments deletes skipIntegrity l =
      .ok ((w'.store.feed.drain l.store.feed.subscribe.1).1.head?,
        l.withStore { w'.drop with feed := (w'.store.feed.drain l.store.feed.subscribe.1).2 }) := by
  unfold toLoaded
  dsimp only
  rw [hchange]

/-- Changing loaded records succeeds. -/
theorem toLoaded_ok (schema : Schema)
    (hcharted : ∀ id e, memory.table.find? id = some e → e.Charted types)
    (hfields : ∀ a ∈ assignments, Properties.isReserved a.field = false)
    (hthere : ∀ a ∈ assignments, memory.table.contains a.id = true) (name : String)
    (deletes : List EntityId) (skipIntegrity : Bool) :
    ∃ change l, toLoaded name assignments deletes skipIntegrity
        ⟨Store.new .standard ⟨memory, .plain⟩, types, schema⟩ = .ok (change, l) ∧
      l.schema = schema ∧ (∀ id e, l.table.find? id = some e → e.Charted types) ∧
      (change = none ↔ assignments = [] ∧ deletes = []) ∧
      Changed types assignments (!skipIntegrity) memory l change := by
  let opened : Store :=
    { Store.new .standard ⟨memory, .plain⟩ with feed := (Feed.new Feed.defaultHistory).subscribe.2 }
  let w := (opened.begin name).onTxn fun t => { t with ensureIntegrity := !skipIntegrity }
  have hdraft : Draft types assignments (!skipIntegrity) opened w :=
    draft_begin (s := opened) hcharted rfl name _ _
  have hrun : Honours (Hooks.outermost Repair.hooks) := honours_hooks 9999
  obtain ⟨w', hchange, hmoved⟩ := hdraft.change_ok rfl rfl hfields hthere hrun rfl
    (show 2 ≤ Config.standard.maxIntegrityPasses by decide)
    (show Config.standard.maxIntegrityPasses ≤ UInt64.size / 2 by decide) deletes
  have hresult : toLoaded name assignments deletes skipIntegrity
      ⟨Store.new .standard ⟨memory, .plain⟩, types, schema⟩ =
      .ok ((w'.store.feed.drain 0).1.head?,
        ⟨{ w'.drop with feed := (w'.store.feed.drain 0).2 }, types, schema⟩) :=
    toLoaded_of_change hchange
  have htable : w'.drop.backend.table = w'.store.backend.table := (Work.still_drop w').table
  rcases hmoved with ⟨hnone, hnone', hunmoved⟩ | ⟨hsome, u, hu, hstart, hdelivers⟩
  · have hreceived : (w'.store.feed.drain 0).1.head? = none := by
      rw [hunmoved.feed]
      rfl
    have hsame : w'.drop.backend.table = memory.table := htable.trans hunmoved.table
    refine ⟨_, _, hresult, rfl, fun id e he => hcharted id e (hsame ▸ he), ?_, ?_⟩
    · rw [hreceived]
      exact ⟨fun _ => ⟨hnone, hnone'⟩, fun _ => rfl⟩
    · rw [hreceived]
      exact .unchanged hsame
  · have hreceived : (w'.store.feed.drain 0).1.head? =
        some { u.txn.changeSet with sequence := ⟨1⟩ } := by
      rw [hdelivers.feed, hstart.feed]
      exact congrArg List.head? (received_of_emit Feed.defaultHistory u.txn.changeSet)
    have hshown : w'.drop.backend.table.snapshots =
        u.txn.changeSet.applyTo memory.table.snapshots := by
      have hstep := (hu.mono (fun h => h.regular) fun h => h.overlaid).inStep hdelivers
      rw [htable, ← hstep, hstart.table]
      rfl
    refine ⟨_, _, hresult, rfl, fun id e he => ?_, ?_, ?_⟩
    · have hfound : w'.store.backend.table.find? id = some e := htable ▸ he
      rw [Work.find?_of_delivers hdelivers] at hfound
      exact hu.of_overlay hfound
    · rw [hreceived]
      exact ⟨fun h => (by cases h), fun h => absurd h hsome⟩
    · rw [hreceived]
      exact .written u hu hstart.table hshown

/-! ## The difference -/

/-- What may stand in the update of an id: its type and the id itself, the fields that were assigned
to it, and references that were cleared, as long as references are repaired. -/
inductive Admitted (s : Snapshot) (assignments : List Assignment) (o : ApplyOptions)
    (id : EntityId) : String → PropertyValue → Prop
  | type {value} : Admitted s assignments o id Properties.typeKey value
  | id {value} : Admitted s assignments o id Properties.idKey value
  | assigned {a value} : a ∈ assignments → a.id = id → Admitted s assignments o id a.field value
  | cleared {field m tag type} : o.skipIntegrity = false → s.byId.find? id = some m →
      m.typeTag? = some tag → s.schema.find? tag = some type →
      type.references.contains field = true → Admitted s assignments o id field none

/-- The update of an id, which is empty where there is none. -/
def updateOf (change : Option ChangeSet) (id : EntityId) : Properties :=
  (change.bind fun c => c.updates.find? id).getD .empty

/-- A change set, or that there is none, tells exactly what one snapshot has become. -/
structure Difference (s : Snapshot) (assignments : List Assignment) (o : ApplyOptions)
    (change : Option ChangeSet) (out : Snapshot) : Prop where
  schema : out.schema = s.schema
  none_iff : change = none ↔ assignments = [] ∧ o.deletes = []
  /-- Every id that is not deleted keeps its last map, overridden by its update. -/
  entities : ∀ p, p ∈ out.entities ↔ ∃ id m, s.byId.find? id = some m ∧
    (∀ c, change = some c → c.deleted.contains id = false) ∧ p = m.merge (updateOf change id)
  ordered : out.entities.Pairwise Properties.Before
  updates : ∀ c, change = some c → ∀ id u, c.updates.find? id = some u →
    ∀ field value, u.find? field = some value → Admitted s assignments o id field value

variable {s : Snapshot} {o : ApplyOptions} {u : Work} {id : EntityId} {p : Properties}
  {l : LoadedStore} {change : Option ChangeSet}

/-- What is published of an id that was loaded. -/
theorem admitted_of_kept
    (hu : u.Kept (Entity.Charted s.types) (Drawn s.types assignments (!o.skipIntegrity))
      Callback.Barred) (hloaded : u.store.backend.table.snapshots = s.byId)
    (h : u.txn.changeSet.updates.find? id = some p) :
    (∃ m, s.byId.find? id = some m) ∧ u.txn.deleted.contains id = false ∧
      ∀ field value, p.find? field = some value → Admitted s assignments o id field value := by
  rw [Transaction.find?_changeSet, Option.map_eq_some_iff] at h
  obtain ⟨e, hput, rfl⟩ := h
  obtain ⟨d, hd, -, ⟨c, hc, -⟩, htag, hexplained⟩ := hu.pending hput
  obtain rfl := Index.id_of_find? hput
  have hm : s.byId.find? e.id = some c.properties := by
    rw [← hloaded, Index.find?_snapshots, hc]
    rfl
  have halive : u.txn.deleted.contains e.id = false :=
    hu.apart.alive (Index.contains_iff_find?.2 ⟨e, hput⟩)
  refine ⟨⟨_, hm⟩, halive, fun field value hfield => ?_⟩
  rw [Transaction.update, hd, Option.getD_some, Properties.withId, Properties.withType,
    OrderedMap.find?_insert, OrderedMap.find?_insert] at hfield
  split at hfield
  · rename_i hkey
    exact hkey ▸ .id
  · split at hfield
    · rename_i hkey
      exact hkey ▸ .type
    · cases hexplained field value hfield with
      | id => exact .id
      | assigned ha heq => exact .assigned ha heq
      | @cleared field type hrepairs htype href =>
        have htype' : s.schema.find? e.tag = some type := by
          rcases Snapshot.find?_types htype with htype | rfl
          · exact htype
          · cases href
        have hlabel : c.properties.typeTag? = some e.tag :=
          htag c hc ▸ (hu.committed hc).regular.labels.1
        exact .cleared (by simpa using hrepairs) hm hlabel htype' href

theorem Changed.difference (h : Changed s.types assignments (!o.skipIntegrity) memory l change)
    (hloaded : memory.table.snapshots = s.byId) (hschema : l.schema = s.schema)
    (hcharted : ∀ id e, l.table.find? id = some e → e.Charted s.types)
    (hnone : change = none ↔ assignments = [] ∧ o.deletes = []) :
    Difference s assignments o change l.toSnapshot := by
  refine ⟨hschema, hnone, fun p => ?_,
    LoadedStore.pairwise_toSnapshot fun id e he => (hcharted id e he).regular, ?_⟩
  · rw [LoadedStore.mem_toSnapshot]
    refine exists_congr fun id => ?_
    cases h with
    | unchanged hsame =>
      rw [hsame, hloaded]
      simp [updateOf, OrderedMap.merge_empty]
    | written u hu hstart hshown =>
      have hof : updateOf (some { u.txn.changeSet with sequence := ⟨1⟩ }) id =
          (u.txn.changeSet.updates.find? id).getD .empty := rfl
      rw [hshown, hloaded, ChangeSet.find?_applyTo, hof]
      simp only [Option.some.injEq, forall_eq']
      cases hupdate : u.txn.changeSet.updates.find? id with
      | none =>
        cases hdeleted : u.txn.changeSet.deleted.contains id with
        | true => simp
        | false => simp [OrderedMap.merge_empty, eq_comm]
      | some update =>
        obtain ⟨⟨m, hm⟩, halive, -⟩ := admitted_of_kept hu (hstart ▸ hloaded) hupdate
        replace halive : u.txn.changeSet.deleted.contains id = false := halive
        simp [hm, halive, eq_comm]
  · intro c hc id update hupdate
    cases h with
    | unchanged => cases hc
    | written u hu hstart _ =>
      cases hc
      exact (admitted_of_kept hu (hstart ▸ hloaded) hupdate).2.2

/-- The tool reads a snapshot, changes it, and writes what it has become. -/
theorem run_of_toSnapshot {f : Folder} {path : String} {out : Snapshot}
    (hassignments : o.assignments = .ok assignments)
    (hchange : toSnapshot ("apply " ++ path) assignments o s = .ok (change, out))
    (hread : Snapshot.ofContents path (f.read path) = .ok s)
    (hwrites : ∀ output, o.output = some output → ∃ written, f.write output "" = .ok written) :
    ∃ g, f.run (Apply.run path o) = (.ok change, g) ∧
      ∀ output, o.output = some output → g.read output = .ok (.text out.render) := by
  have hrun : f.run (Apply.run path o) =
      f.run ((writeOutput out o.output).andThen fun () => .done (.ok change)) := by
    simp only [Apply.run, hassignments, Snapshot.read, FileProgram.andThen, Folder.run, hread,
      hchange]
  rw [hrun]
  cases houtput : o.output with
  | none => exact ⟨f, rfl, fun _ h => by cases h⟩
  | some output =>
    obtain ⟨_, hwritten⟩ := hwrites output houtput
    obtain ⟨g, hg⟩ := Folder.exists_write hwritten out.render
    refine ⟨g, ?_, fun _ h => ?_⟩
    · simp only [writeOutput, Snapshot.write, FileProgram.andThen, Folder.run, hg]
    · cases h
      exact Folder.read_of_write hg

/-- Changing a snapshot succeeds, and its change set is the exact difference that it makes. It is
`none` if there is nothing to do. The changed snapshot is what is written. -/
theorem change_set_is_the_difference (hlabelled : s.Labelled)
    (hassignments : o.assignments = .ok assignments)
    (hthere : ∀ a ∈ assignments, ∃ p ∈ s.entities, p.id? = some a.id) (path : String) :
    ∃ change out, toSnapshot ("apply " ++ path) assignments o s = .ok (change, out) ∧
      Difference s assignments o change out ∧
      ∀ f : Folder, Snapshot.ofContents path (f.read path) = .ok s →
        (∀ output, o.output = some output → ∃ written, f.write output "" = .ok written) →
        ∃ g, f.run (run path o) = (.ok change, g) ∧
          ∀ output, o.output = some output → g.read output = .ok (.text out.render) := by
  obtain ⟨memory, hload, hloaded, hcharted⟩ := Snapshot.load_labelled hlabelled .standard
  have hcontains (a : Assignment) (ha : a ∈ assignments) :
      memory.table.contains a.id = true := by
    obtain ⟨p, hp, hid⟩ := hthere a ha
    obtain ⟨m, hm⟩ := Snapshot.exists_byId hp hid
    rw [← hloaded, Index.find?_snapshots, Option.map_eq_some_iff] at hm
    obtain ⟨e, he, -⟩ := hm
    exact Index.contains_iff_find?.2 ⟨e, he⟩
  obtain ⟨change, l, hchange, hschema, hcharted', hnone, hchanged⟩ :=
    toLoaded_ok s.schema hcharted (fun a ha => ApplyOptions.not_reserved hassignments ha) hcontains
      ("apply " ++ path) o.deletes o.skipIntegrity
  have hsnapshot : toSnapshot ("apply " ++ path) assignments o s = .ok (change, l.toSnapshot) := by
    simp only [toSnapshot, hload, hchange]
    rfl
  exact ⟨change, l.toSnapshot, hsnapshot, hchanged.difference hloaded hschema hcharted' hnone,
    fun f hread hwrites => run_of_toSnapshot hassignments hsnapshot hread hwrites⟩

/-- One entity and another that refers to it. The second is listed twice, and the first of the two
does not count. -/
def pair : Snapshot where
  schema := OrderedMap.ofList [("B", ⟨OrderedMap.ofList [("a", .clear)]⟩)]
  entities :=
    [OrderedMap.ofList [("@type", some "A"), ("id", some "a")],
      OrderedMap.ofList [("@type", some "B"), ("id", some "b"), ("a", some "nobody")],
      OrderedMap.ofList [("@type", some "B"), ("id", some "b"), ("a", some "a")]]

/-- The first of the pair is deleted, and the second gets a name. -/
def parting : ApplyOptions where
  deletes := ["a"]
  sets := ["b.name=Bo"]
  output := some "out"
  skipIntegrity := false

/-- The reference of the second is cleared besides. -/
theorem parting_is_the_difference :
    ∃ c out g, Folder.run (OrderedMap.ofList [("in", pair.toJson.compact)])
        (Apply.run "in" parting) = (.ok (some c), g) ∧
      g.read "out" = .ok (.text out.render) ∧
      Difference pair [⟨"b", "name", some "Bo"⟩] parting (some c) out ∧
      c.deleted.keys = ["a"] ∧ c.updates.entries.map (fun u => (u.1, u.2.entries)) =
        [("b", [("@type", some "B"), ("a", none), ("id", some "b"), ("name", some "Bo")])] := by
  have hread : Snapshot.ofContents "in" (Folder.read (OrderedMap.ofList
      [("in", pair.toJson.compact)]) "in") = .ok pair := by decide +kernel
  have hassignments : parting.assignments = .ok [⟨"b", "name", some "Bo"⟩] := by decide +kernel
  obtain ⟨change, out, hchange, hdifference, hfiles⟩ :=
    change_set_is_the_difference (s := pair) (by decide +kernel) hassignments (by decide +kernel)
      "in"
  obtain ⟨g, hrun, hwritten⟩ := hfiles _ hread fun output h => by
    cases h
    exact ⟨_, rfl⟩
  have hevaluated : (toSnapshot ("apply " ++ "in") [⟨"b", "name", some "Bo"⟩] parting
      pair).toOption.any (fun r => r.1.any fun c => c.deleted.keys = ["a"] ∧
        c.updates.entries.map (fun u => (u.1, u.2.entries)) =
          [("b", [("@type", some "B"), ("a", none), ("id", some "b"), ("name", some "Bo")])]) =
      true := by
    decide +kernel
  rw [hchange] at hevaluated
  cases change with
  | none => cases hevaluated
  | some c =>
    obtain ⟨hdeleted, hupdates⟩ := of_decide_eq_true hevaluated
    exact ⟨c, out, g, hrun, hwritten "out" rfl, hdifference, hdeleted, hupdates⟩

end Apply

end EntityStore
