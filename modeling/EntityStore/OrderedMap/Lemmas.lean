import EntityStore.OrderedMap.Basic

/-!
# Lookups in an ordered map

What each operation on a map does to its lookups. Main statements: the entries of a map are its
lookups (`mem_entries_iff`), and two maps that answer every lookup alike are the same map
(`ext_find?`).
-/

namespace EntityStore.OrderedMap

variable {α β : Type}

/-! ## One key -/

theorem ext {m n : OrderedMap α} (h : m.entries = n.entries) : m = n := by
  cases m
  cases n
  cases h
  rfl

theorem valueAt?_placeAt (key other : String) (value : α) (l : List (String × α)) :
    valueAt? other (placeAt key value l) =
      if key = other then some value else valueAt? other l := by
  induction l with
  | nil => simp [placeAt, valueAt?]
  | cons p rest ih =>
    obtain ⟨k, v⟩ := p
    rw [placeAt]
    by_cases hlt : key < k
    · simp [hlt, valueAt?]
    · by_cases heq : key = k
      · subst heq
        by_cases ho : key = other <;> simp [valueAt?, ho]
      · rw [if_neg hlt, if_neg heq, valueAt?, valueAt?, ih]
        by_cases hko : k = other
        · have : key ≠ other := fun h => heq (h.trans hko.symm)
          simp [hko, this]
        · simp [hko]

@[simp] theorem find?_insert (m : OrderedMap α) (key other : String) (value : α) :
    (m.insert key value).find? other = if key = other then some value else m.find? other :=
  valueAt?_placeAt key other value m.entries

@[simp] theorem find?_empty (key : String) : (empty : OrderedMap α).find? key = none := rfl

@[simp] theorem find?_erase (m : OrderedMap α) (key other : String) :
    (m.erase key).find? other = if key = other then none else m.find? other := by
  obtain ⟨l, hl⟩ := m
  simp only [find?, erase]
  induction l with
  | nil => simp [valueAt?]
  | cons p rest ih =>
    obtain ⟨k, v⟩ := p
    have ih := ih (List.pairwise_cons.1 hl).2
    by_cases hk : k = key
    · subst hk
      by_cases ho : k = other
      · subst ho
        simpa [valueAt?] using ih
      · simpa [valueAt?, ho] using ih
    · by_cases ho : k = other
      · subst ho
        have : key ≠ k := fun h => hk h.symm
        simp [valueAt?, hk, this]
      · simpa [valueAt?, hk, ho] using ih

theorem find?_erase_eq_some {m : OrderedMap α} {key other : String} {value : α} :
    (m.erase key).find? other = some value ↔ key ≠ other ∧ m.find? other = some value := by
  rw [find?_erase]
  split <;> simp [*]

theorem mem_of_valueAt? {key : String} {value : α} {l : List (String × α)}
    (h : valueAt? key l = some value) : (key, value) ∈ l := by
  induction l with
  | nil => simp [valueAt?] at h
  | cons p rest ih =>
    obtain ⟨k, v⟩ := p
    rw [valueAt?] at h
    split at h
    · rename_i hk
      cases h
      exact hk ▸ List.mem_cons_self
    · exact List.mem_cons_of_mem _ (ih h)

theorem valueAt?_of_mem {key : String} {value : α} {l : List (String × α)}
    (hl : l.Pairwise fun a b => a.1 < b.1) (h : (key, value) ∈ l) :
    valueAt? key l = some value := by
  induction l with
  | nil => simp at h
  | cons p rest ih =>
    obtain ⟨k, v⟩ := p
    obtain ⟨hk, hrest⟩ := List.pairwise_cons.1 hl
    rcases List.mem_cons.1 h with h | h
    · cases h
      simp [valueAt?]
    · have hlt : k < key := hk _ h
      have hne : k ≠ key := fun heq => String.lt_irrefl key (heq ▸ hlt)
      rw [valueAt?, if_neg hne]
      exact ih hrest h

theorem mem_entries_iff {m : OrderedMap α} {key : String} {value : α} :
    (key, value) ∈ m.entries ↔ m.find? key = some value :=
  ⟨valueAt?_of_mem m.sorted, mem_of_valueAt?⟩

theorem contains_iff {m : OrderedMap α} {key : String} :
    m.contains key = true ↔ ∃ value, m.find? key = some value := by
  simp [contains, Option.isSome_iff_exists]

theorem isEmpty_iff {m : OrderedMap α} :
    m.isEmpty = true ↔ ∀ key, m.contains key = false := by
  rw [isEmpty, List.isEmpty_iff]
  constructor
  · intro h key
    simp [contains, find?, h, valueAt?]
  · intro h
    cases he : m.entries with
    | nil => rfl
    | cons entry rest =>
      have hfound : m.find? entry.1 = some entry.2 := mem_entries_iff.1 (by simp [he])
      simpa [contains, hfound] using h entry.1

theorem isEmpty_insert (m : OrderedMap α) (key : String) (value : α) :
    (m.insert key value).isEmpty = false :=
  Bool.eq_false_iff.2 fun h => by simpa [contains] using isEmpty_iff.1 h key

theorem length_placeAt {key : String} {value : α} {l : List (String × α)}
    (h : valueAt? key l = none) : (placeAt key value l).length = l.length + 1 := by
  induction l with
  | nil => rfl
  | cons p rest ih =>
    obtain ⟨k, v⟩ := p
    rw [valueAt?] at h
    split at h
    · cases h
    · rename_i hne
      rw [placeAt]
      split
      · rfl
      · rw [if_neg fun heq => hne heq.symm, List.length_cons, List.length_cons, ih h]

theorem size_insert {m : OrderedMap α} {key : String} (h : m.contains key = false) (value : α) :
    (m.insert key value).size = m.size + 1 :=
  length_placeAt (by simpa [contains, find?] using h)

theorem contains_insert (m : OrderedMap α) (key other : String) (value : α) :
    (m.insert key value).contains other = (decide (key = other) || m.contains other) := by
  by_cases h : key = other <;> simp [contains, h]

theorem contains_erase (m : OrderedMap α) (key other : String) :
    (m.erase key).contains other = (!decide (key = other) && m.contains other) := by
  by_cases h : key = other <;> simp [contains, h]

theorem mem_keys_iff {m : OrderedMap α} {key : String} :
    key ∈ m.keys ↔ m.contains key = true := by
  simp only [keys, List.mem_map, Prod.exists, exists_and_right, exists_eq_right, mem_entries_iff,
    contains_iff]

theorem nodup_keys (m : OrderedMap α) : m.keys.Nodup := by
  refine List.pairwise_map.2 (m.sorted.imp fun h heq => ?_)
  rw [heq] at h
  exact String.lt_irrefl _ h

/-! ## Whole maps -/

/-- Lists in strict order that have the same members are the same list. -/
theorem eq_of_mem_iff {l m : List (String × α)} (hl : l.Pairwise fun a b => a.1 < b.1)
    (hm : m.Pairwise fun a b => a.1 < b.1) (h : ∀ e, e ∈ l ↔ e ∈ m) : l = m := by
  induction l generalizing m with
  | nil =>
    cases m with
    | nil => rfl
    | cons q _ => exact absurd ((h q).2 List.mem_cons_self) List.not_mem_nil
  | cons p l ih =>
    cases m with
    | nil => exact absurd ((h p).1 List.mem_cons_self) List.not_mem_nil
    | cons q m =>
      obtain ⟨hp, hl⟩ := List.pairwise_cons.1 hl
      obtain ⟨hq, hm'⟩ := List.pairwise_cons.1 hm
      have hpq : p = q := by
        rcases List.mem_cons.1 ((h p).1 List.mem_cons_self) with heq | hpm
        · exact heq
        · rcases List.mem_cons.1 ((h q).2 List.mem_cons_self) with heq | hql
          · exact heq.symm
          · exact absurd (String.lt_trans (hq p hpm) (hp q hql)) (String.lt_irrefl _)
      subst hpq
      refine congrArg _ (ih hl hm' fun e => ⟨fun he => ?_, fun he => ?_⟩)
      · rcases List.mem_cons.1 ((h e).1 (List.mem_cons_of_mem _ he)) with rfl | hem
        · exact absurd (hp e he) (String.lt_irrefl _)
        · exact hem
      · rcases List.mem_cons.1 ((h e).2 (List.mem_cons_of_mem _ he)) with rfl | hel
        · exact absurd (hq e he) (String.lt_irrefl _)
        · exact hel

/-- Two maps that answer every lookup alike are the same map. -/
theorem ext_find? {m n : OrderedMap α} (h : ∀ key, m.find? key = n.find? key) : m = n := by
  refine ext (eq_of_mem_iff m.sorted n.sorted fun e => ?_)
  rw [← Prod.eta e, mem_entries_iff, mem_entries_iff, h]

theorem find?_mapEntries (f : String → α → β) (m : OrderedMap α) (key : String) :
    (m.mapEntries f).find? key = (m.find? key).map (f key) := by
  obtain ⟨l, _⟩ := m
  simp only [find?, mapEntries]
  induction l with
  | nil => rfl
  | cons p rest ih =>
    obtain ⟨k, v⟩ := p
    by_cases hk : k = key
    · simp [valueAt?, hk]
    · simp_all [valueAt?]

theorem keys_mapEntries (f : String → α → β) (m : OrderedMap α) : (m.mapEntries f).keys = m.keys := by
  simp [keys, mapEntries]

theorem find?_filter (test : String → α → Bool) (m : OrderedMap α) (key : String) :
    (m.filter test).find? key = (m.find? key).filter (test key) := by
  apply Option.ext
  intro value
  rw [← mem_entries_iff, Option.filter_eq_some_iff, ← mem_entries_iff]
  simp [filter]

/-! ## Maps from lists -/

theorem valueAt?_append (key : String) (l m : List (String × α)) :
    valueAt? key (l ++ m) = (valueAt? key l).or (valueAt? key m) := by
  induction l with
  | nil => rfl
  | cons p rest ih =>
    by_cases hk : p.1 = key <;> simp [valueAt?, hk, ih]

/-- In a list whose keys differ, it does not matter from which end a key is looked up. -/
theorem valueAt?_reverse {l : List (String × α)} (hl : l.Pairwise fun a b => a.1 < b.1)
    (key : String) : valueAt? key l.reverse = valueAt? key l := by
  induction l with
  | nil => rfl
  | cons p rest ih =>
    obtain ⟨hp, hrest⟩ := List.pairwise_cons.1 hl
    rw [List.reverse_cons, valueAt?_append, ih hrest]
    by_cases hk : p.1 = key
    · cases hv : valueAt? key rest with
      | none => simp [valueAt?, hk]
      | some value =>
        have hlt := hp _ (mem_of_valueAt? hv)
        exact absurd (hk ▸ hlt) (String.lt_irrefl _)
    · simp [valueAt?, hk]

theorem find?_foldl_insert (pairs : List (String × α)) (m : OrderedMap α) (key : String) :
    (pairs.foldl (fun m e => m.insert e.1 e.2) m).find? key =
      (valueAt? key pairs.reverse).or (m.find? key) := by
  induction pairs generalizing m with
  | nil => rfl
  | cons p rest ih =>
    rw [List.foldl_cons, ih, List.reverse_cons, valueAt?_append, find?_insert]
    by_cases hk : p.1 = key <;> simp [valueAt?, hk]

theorem find?_ofList (pairs : List (String × α)) (key : String) :
    (ofList pairs).find? key = valueAt? key pairs.reverse := by
  simp [ofList, find?_foldl_insert]

theorem valueAt?_isSome_of_mem {key : String} {value : α} {l : List (String × α)}
    (h : (key, value) ∈ l) : (valueAt? key l).isSome = true := by
  induction l with
  | nil => cases h
  | cons p rest ih =>
    obtain ⟨k, v⟩ := p
    rw [valueAt?]
    split
    · rfl
    · rename_i hne
      rcases List.mem_cons.1 h with heq | h
      · exact absurd (Prod.mk.inj heq).1.symm hne
      · exact ih h

/-- A map made of a list of the pairs that a lookup confirms answers as it does. -/
theorem find?_ofList_of_iff (look : String → Option α) {pairs : List (String × α)}
    (h : ∀ key value, (key, value) ∈ pairs ↔ look key = some value) (key : String) :
    (ofList pairs).find? key = look key := by
  rw [find?_ofList]
  cases hv : valueAt? key pairs.reverse with
  | some value => exact ((h key value).1 (List.mem_reverse.1 (mem_of_valueAt? hv))).symm
  | none =>
    cases hlook : look key with
    | none => rfl
    | some value =>
      have hsome := valueAt?_isSome_of_mem (List.mem_reverse.2 ((h key value).2 hlook))
      rw [hv] at hsome
      cases hsome

theorem find?_merge (m overlay : OrderedMap α) (key : String) :
    (m.merge overlay).find? key = (overlay.find? key).or (m.find? key) := by
  rw [merge, find?_foldl_insert, valueAt?_reverse overlay.sorted]
  rfl

/-! ## Changes at one key -/

theorem insert_insert (m : OrderedMap α) (key : String) (a b : α) :
    (m.insert key a).insert key b = m.insert key b :=
  ext_find? fun other => by by_cases h : key = other <;> simp [h]

theorem erase_insert (m : OrderedMap α) (key : String) (a : α) :
    (m.insert key a).erase key = m.erase key :=
  ext_find? fun other => by by_cases h : key = other <;> simp [h]

theorem insert_self {m : OrderedMap α} {key : String} {a : α} (h : m.find? key = some a) :
    m.insert key a = m :=
  ext_find? fun other => by
    by_cases hk : key = other
    · simp [← hk, h]
    · simp [hk]

theorem find?_modify (m : OrderedMap α) (key other : String) (change : α → α) :
    (m.modify key change).find? other =
      if key = other then (m.find? key).map change else m.find? other := by
  rw [modify]
  cases h : m.find? key with
  | some value => simp
  | none =>
    by_cases heq : key = other
    · simp [← heq, h]
    · simp [heq]

/-! ## Sets -/

theorem contains_add (s : OrderedSet) (item other : String) :
    (s.add item).contains other = (decide (item = other) || s.contains other) :=
  contains_insert s item other ()

theorem add_add (s : OrderedSet) (item : String) : (s.add item).add item = s.add item :=
  insert_insert s item () ()

theorem ext_contains {s s' : OrderedSet} (h : ∀ item, s.contains item = s'.contains item) :
    s = s' := by
  refine ext_find? fun item => ?_
  have hitem := h item
  unfold contains at hitem
  cases hs : s.find? item <;> cases hs' : s'.find? item <;> simp_all

theorem contains_addAll (s : OrderedSet) (items : List String) (other : String) :
    (s.addAll items).contains other = true ↔ s.contains other = true ∨ other ∈ items := by
  induction items generalizing s with
  | nil => simp [addAll]
  | cons item rest ih =>
    rw [addAll, List.foldl_cons, ← addAll, ih, contains_add]
    by_cases h : item = other
    · simp [h]
    · simp [h, Ne.symm h]

theorem contains_setOf (items : List String) (other : String) :
    (setOf items).contains other = true ↔ other ∈ items := by
  have h : setOf items = (empty : OrderedSet).addAll items := by
    rw [setOf, ofList, addAll, List.foldl_map]
    rfl
  rw [h, contains_addAll]
  simp [contains]

theorem mem_values_mapEntries_iff {f : String → α → β} {m : OrderedMap α} {b : β} :
    b ∈ (m.mapEntries f).values ↔ ∃ key a, m.find? key = some a ∧ f key a = b := by
  simp [values, mapEntries, ← mem_entries_iff]

end EntityStore.OrderedMap
