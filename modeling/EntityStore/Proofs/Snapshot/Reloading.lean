import EntityStore.Proofs.Snapshot.Loading
import Mathlib.Data.List.Perm.Basic
import Mathlib.Data.List.Sort

/-!
# Loading and writing back

A snapshot that is loaded and written back is in normal form: for each id the last map with it is
left, whole, and the maps stand in order of type and id. A snapshot has one normal form only, and a
normal form is its own, so writing back a second time changes nothing. The only obstacle to loading
is a map without a type or an id, and the error tells which is missing.

Main statement: `Snapshot.load_normalizes`.
-/

namespace EntityStore

/-! ## The order of property maps -/

namespace Properties

variable {p q : Properties}

theorem Before.irrefl : ¬ p.Before p := by
  rintro ⟨tag, id, tag', id', htag, hid, htag', hid', hlt⟩
  obtain rfl : tag = tag' := Option.some.inj (htag.symm.trans htag')
  obtain rfl : id = id' := Option.some.inj (hid.symm.trans hid')
  rcases hlt with hlt | ⟨-, hlt⟩ <;> exact String.lt_irrefl _ hlt

theorem Before.asymm (h : p.Before q) : ¬ q.Before p := by
  obtain ⟨tag, id, tag', id', htag, hid, htag', hid', hlt⟩ := h
  rintro ⟨tag'', id'', tag''', id''', htag'', hid'', htag''', hid''', hback⟩
  obtain rfl : tag' = tag'' := Option.some.inj (htag'.symm.trans htag'')
  obtain rfl : id' = id'' := Option.some.inj (hid'.symm.trans hid'')
  obtain rfl : tag = tag''' := Option.some.inj (htag.symm.trans htag''')
  obtain rfl : id = id''' := Option.some.inj (hid.symm.trans hid''')
  rcases hlt with hlt | ⟨rfl, hlt⟩
  · rcases hback with hback | ⟨rfl, -⟩
    · exact String.lt_asymm hlt hback
    · exact String.lt_irrefl _ hlt
  · rcases hback with hback | ⟨-, hback⟩
    · exact String.lt_irrefl _ hback
    · exact String.lt_asymm hlt hback

/-- Why a property map cannot be brought to life: it has no id, or else it has no type. -/
def fault? (p : Properties) : Option StoreError :=
  if p.id?.isNone then some (.invalidProperty idKey "missing id")
  else if p.typeTag?.isNone then some (.invalidProperty typeKey "missing type tag")
  else none

theorem fault?_eq_none : p.fault? = none ↔ p.typeTag?.isSome = true ∧ p.id?.isSome = true := by
  unfold fault?
  cases p.id? <;> cases p.typeTag? <;> simp

end Properties

/-- A map with a fault is not received, and the error tells the fault. -/
theorem Memory.receiveOne_fault {p : Properties} {err : StoreError} (h : p.fault? = some err)
    (registry : Registry) :
    (Memory.ofEntities []).receiveOne registry p = .error err := by
  unfold Properties.fault? at h
  unfold receiveOne
  cases hid : p.id? with
  | none =>
    rw [hid] at h
    exact congrArg _ (Option.some.inj h)
  | some id =>
    cases htag : p.typeTag? with
    | none =>
      rw [hid, htag] at h
      show registry.materialize p = _
      rw [Registry.materialize, htag]
      exact congrArg _ (Option.some.inj h)
    | some tag =>
      rw [hid, htag] at h
      cases h

/-- A list is gone through up to the first item at which a step fails. -/
theorem mapM_eq_error {α β ε : Type} {step : α → Except ε β} {fault? : α → Option ε} {err : ε}
    {l : List α} (hfault : ∀ a ∈ l, ∀ err, fault? a = some err → step a = .error err)
    (hsound : ∀ a ∈ l, fault? a = none → ∃ b, step a = .ok b)
    (h : l.findSome? fault? = some err) : l.mapM step = .error err := by
  induction l with
  | nil => cases h
  | cons a rest ih =>
    rw [List.findSome?_cons] at h
    rw [List.mapM_cons]
    cases ha : fault? a with
    | some first =>
      rw [ha] at h
      rw [hfault a List.mem_cons_self first ha]
      exact congrArg _ (Option.some.inj h)
    | none =>
      rw [ha] at h
      obtain ⟨b, hb⟩ := hsound a List.mem_cons_self ha
      rw [hb, ih (fun x hx => hfault x (List.mem_cons_of_mem _ hx))
        (fun x hx => hsound x (List.mem_cons_of_mem _ hx)) h]
      rfl

namespace Snapshot

variable {s out other : Snapshot} {config : Config} {p : Properties} {id : EntityId}

/-! ## When a snapshot loads -/

theorem labelled_iff : s.Labelled ↔ s.entities.findSome? Properties.fault? = none := by
  rw [List.findSome?_eq_none_iff]
  exact forall₂_congr fun p _ => Properties.fault?_eq_none.symm

/-- A snapshot in which a map lacks its type or its id does not load. -/
theorem load_unlabelled {err : StoreError}
    (h : s.entities.findSome? Properties.fault? = some err) : s.load config = .error err := by
  have hreceived : s.entities.mapM ((Memory.ofEntities []).receiveOne (.ofSchema s.types)) =
      .error err := by
    refine mapM_eq_error (fun p _ err hp => Memory.receiveOne_fault hp _) (fun p hp hsound => ?_) h
    have hlabels := Properties.fault?_eq_none.1 hsound
    -- the other maps do not matter to how one is received, as long as its type is known
    obtain ⟨tag, htag⟩ := Option.isSome_iff_exists.1 hlabels.1
    obtain ⟨id, hid⟩ := Option.isSome_iff_exists.1 hlabels.2
    obtain ⟨type, htype⟩ := exists_type hp htag
    rw [Memory.receiveOne, hid]
    exact ⟨_, Registry.materialize_ofSchema htag hid htype⟩
  rw [load, Memory.receive, hreceived]

/-! ## Normal forms -/

/-- The maps with an id, in the order in which they stand. -/
def mapsOf (s : Snapshot) (id : EntityId) : List Properties :=
  s.entities.filter fun p => p.id? = some id

/-- One snapshot is the normal form of another: the last map with each id, in order. -/
structure Normalizes (s out : Snapshot) : Prop where
  schema : out.schema = s.schema
  labelled : out.Labelled
  last : ∀ id, out.mapsOf id = (s.mapsOf id).getLast?.toList
  ordered : out.entities.Pairwise Properties.Before

/-- What the table of ids has for an id is the last map with it. -/
theorem find?_byId (s : Snapshot) (id : EntityId) : s.byId.find? id = (s.mapsOf id).getLast? := by
  have hfirst (l : List Properties) :
      OrderedMap.valueAt? id (l.filterMap fun p => p.id?.map fun id => (id, p)) =
        (l.filter fun p => p.id? = some id).head? := by
    induction l with
    | nil => rfl
    | cons p rest ih =>
      cases hp : p.id? with
      | none => simpa [hp] using ih
      | some own =>
        by_cases hown : own = id <;> simp [hp, hown, OrderedMap.valueAt?, ih]
  rw [byId, OrderedMap.find?_ofList, ← List.filterMap_reverse, hfirst, mapsOf,
    ← List.head?_reverse, List.filter_reverse]

theorem mem_mapsOf : p ∈ s.mapsOf id ↔ p ∈ s.entities ∧ p.id? = some id := by
  simp [mapsOf]

theorem nodup_of_ordered (h : s.entities.Pairwise Properties.Before) : s.entities.Nodup := by
  refine h.imp fun {p q} hbefore heq => ?_
  subst heq
  exact Properties.Before.irrefl hbefore

theorem mapsOf_eq {found : Option Properties} (hnodup : s.entities.Nodup)
    (h : ∀ p, p ∈ s.entities ∧ p.id? = some id ↔ found = some p) : s.mapsOf id = found.toList := by
  have hperm : (s.mapsOf id).Perm found.toList := by
    refine (List.perm_ext_iff_of_nodup (hnodup.filter _) ?_).2 fun p => ?_
    · cases found <;> simp
    · rw [← mapsOf, mem_mapsOf, h, Option.mem_toList]
  cases found with
  | none => exact List.perm_nil.1 hperm
  | some p => exact List.perm_singleton.1 hperm

theorem Normalizes.mem_iff (h : s.Normalizes out) :
    p ∈ out.entities ↔ ∃ id, p.id? = some id ∧ (s.mapsOf id).getLast? = some p := by
  constructor
  · intro hp
    obtain ⟨id, hid⟩ := Option.isSome_iff_exists.1 (h.labelled p hp).2
    have hmem : p ∈ out.mapsOf id := mem_mapsOf.2 ⟨hp, hid⟩
    rw [h.last, Option.mem_toList] at hmem
    exact ⟨id, hid, hmem⟩
  · rintro ⟨id, -, hlast⟩
    have hmem : p ∈ out.mapsOf id := by
      rw [h.last, hlast]
      exact List.mem_singleton.2 rfl
    exact (mem_mapsOf.1 hmem).1

/-- There is one normal form only. -/
theorem Normalizes.unique (h : s.Normalizes out) (h' : s.Normalizes other) : out = other := by
  have hperm : out.entities.Perm other.entities :=
    (List.perm_ext_iff_of_nodup (nodup_of_ordered h.ordered) (nodup_of_ordered h'.ordered)).2
      fun p => h.mem_iff.trans h'.mem_iff.symm
  have hentities : out.entities = other.entities :=
    hperm.eq_of_pairwise (fun _ _ _ _ hpq hqp => absurd hqp hpq.asymm) h.ordered h'.ordered
  have hschema : out.schema = other.schema := h.schema.trans h'.schema.symm
  cases out
  cases other
  exact congrArg₂ _ hschema hentities

theorem Normalizes.again (h : s.Normalizes out) : out.Normalizes out where
  schema := rfl
  labelled := h.labelled
  last id := by
    rw [h.last]
    cases (s.mapsOf id).getLast? <;> rfl
  ordered := h.ordered

/-- What is loaded is written back in normal form. -/
theorem normalizes_of_load {l : LoadedStore} (h : s.Labelled) (hload : s.load config = .ok l) :
    s.Normalizes l.toSnapshot := by
  obtain ⟨memory, hloaded, hshown, hcharted⟩ := load_labelled h config
  obtain rfl := Except.ok.inj (hloaded.symm.trans hload)
  have hregular id e (he : memory.table.find? id = some e) : e.Regular := (hcharted id e he).regular
  have hordered := LoadedStore.pairwise_toSnapshot
    (l := ⟨Store.new config ⟨memory, .plain⟩, s.types, s.schema⟩) hregular
  have hown {id : EntityId} {p : Properties} (hp : memory.table.snapshots.find? id = some p) :
      p.typeTag?.isSome = true ∧ p.id? = some id := by
    rw [Index.find?_snapshots, Option.map_eq_some_iff] at hp
    obtain ⟨e, he, rfl⟩ := hp
    obtain ⟨htag, hid⟩ := (hregular id e he).labels
    rw [htag, hid, Index.id_of_find? he]
    exact ⟨rfl, rfl⟩
  refine ⟨rfl, fun p hp => ?_, fun id => ?_, hordered⟩
  · obtain ⟨id, hp⟩ := LoadedStore.mem_toSnapshot.1 hp
    exact ⟨(hown hp).1, Option.isSome_iff_exists.2 ⟨id, (hown hp).2⟩⟩
  · rw [← find?_byId, ← hshown]
    refine mapsOf_eq (nodup_of_ordered hordered) fun p => ?_
    constructor
    · rintro ⟨hp, hid⟩
      obtain ⟨key, hp⟩ := LoadedStore.mem_toSnapshot.1 hp
      obtain rfl := Option.some.inj (hid.symm.trans (hown hp).2)
      exact hp
    · exact fun hp => ⟨LoadedStore.mem_toSnapshot.2 ⟨id, hp⟩, (hown hp).2⟩

/-- A snapshot loads exactly if every map has a type and an id. Written back, it is in normal form,
and loading that and writing it back gives it again. -/
theorem load_normalizes (s : Snapshot) (config : Config) :
    ((∃ l, s.load config = .ok l) ↔ s.Labelled) ∧
    (∀ err, s.load config = .error err ↔ s.entities.findSome? Properties.fault? = some err) ∧
    ∀ l, s.load config = .ok l → s.Normalizes l.toSnapshot ∧
      ∀ config', ∃ l', l.toSnapshot.load config' = .ok l' ∧ l'.toSnapshot = l.toSnapshot := by
  have hloads (t : Snapshot) (c : Config) (h : t.Labelled) : ∃ l, t.load c = .ok l := by
    obtain ⟨memory, hloaded, -⟩ := load_labelled h c
    exact ⟨_, hloaded⟩
  have hlabelled {l : LoadedStore} (h : s.load config = .ok l) : s.Labelled := by
    rw [labelled_iff, Option.eq_none_iff_forall_ne_some]
    intro err hfault
    rw [load_unlabelled hfault] at h
    cases h
  refine ⟨⟨fun ⟨l, hl⟩ => hlabelled hl, hloads s config⟩, fun err => ⟨fun h => ?_, load_unlabelled⟩,
    fun l hl => ?_⟩
  · cases hfault : s.entities.findSome? Properties.fault? with
    | none =>
      obtain ⟨l, hl⟩ := hloads s config (labelled_iff.2 hfault)
      rw [hl] at h
      cases h
    | some first =>
      rw [load_unlabelled hfault] at h
      exact congrArg some (Except.error.inj h)
  · have hnormal : s.Normalizes l.toSnapshot := normalizes_of_load (hlabelled hl) hl
    refine ⟨hnormal, fun config' => ?_⟩
    obtain ⟨l', hl'⟩ := hloads l.toSnapshot config' hnormal.labelled
    exact ⟨l', hl', (normalizes_of_load hnormal.labelled hl').unique hnormal.again⟩

/-- An entity that is listed a second time under another type, and one with an empty id. Neither
type that is left is in the schema, which mentions one that no entity has. -/
def untidy : Snapshot where
  schema := OrderedMap.ofList [("C", ⟨OrderedMap.ofList [("part", .delete)]⟩)]
  entities :=
    [OrderedMap.ofList [("@type", some "B"), ("id", some "a"), ("note", some "old")],
      OrderedMap.ofList [("@type", some "B"), ("id", some "")],
      OrderedMap.ofList [("@type", some "A"), ("id", some "a"), ("note", none)]]

/-- The later of the two is left, with its null, and comes first. -/
theorem untidy_normalizes :
    ∃ l, untidy.load .standard = .ok l ∧ untidy.Normalizes l.toSnapshot ∧
      l.toSnapshot.entities.map (·.entries) =
        [[("@type", some "A"), ("id", some "a"), ("note", none)],
          [("@type", some "B"), ("id", some "")]] := by
  obtain ⟨hloads, -, hnormal⟩ := load_normalizes untidy .standard
  obtain ⟨l, hl⟩ := hloads.2 (by decide)
  have hevaluated : (untidy.load .standard).toOption.map
      (fun l => l.toSnapshot.entities.map (·.entries)) =
        some [[("@type", some "A"), ("id", some "a"), ("note", none)],
          [("@type", some "B"), ("id", some "")]] := by
    decide +kernel
  rw [hl] at hevaluated
  exact ⟨l, hl, (hnormal l hl).1, Option.some.inj hevaluated⟩

end Snapshot

end EntityStore
