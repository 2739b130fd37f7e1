/-!
# Finite maps in key order

A map from texts to values, kept as the list of its entries in increasing order of keys. Texts are
compared by code point. The order is part of the type, so two maps that answer every lookup alike
are the same map, and listing a map needs no sorting.
-/

namespace EntityStore

/-- A finite map keyed by texts. The entries stand in strictly increasing order of their keys. -/
structure OrderedMap (α : Type) where
  entries : List (String × α)
  sorted : entries.Pairwise fun a b => a.1 < b.1
  deriving DecidableEq

/-- A finite set of texts, as a map that carries nothing. -/
abbrev OrderedSet := OrderedMap Unit

namespace OrderedMap

variable {α β : Type}

/-! ## Entry lists -/

/-- The entry list with `value` at `key`, replacing what stood there. -/
def placeAt (key : String) (value : α) : List (String × α) → List (String × α)
  | [] => [(key, value)]
  | (k, v) :: rest =>
    if key < k then (key, value) :: (k, v) :: rest
    else if key = k then (key, value) :: rest
    else (k, v) :: placeAt key value rest

def valueAt? (key : String) : List (String × α) → Option α
  | [] => none
  | (k, v) :: rest => if k = key then some v else valueAt? key rest

theorem mem_placeAt {key : String} {value : α} {e : String × α} {l : List (String × α)}
    (h : e ∈ placeAt key value l) : e = (key, value) ∨ e ∈ l := by
  induction l with
  | nil => exact .inl (by simpa [placeAt] using h)
  | cons p rest ih =>
    obtain ⟨k, v⟩ := p
    rw [placeAt] at h
    split at h
    · simpa using h
    · split at h
      · rcases List.mem_cons.1 h with h | h
        · exact .inl h
        · exact .inr (List.mem_cons_of_mem _ h)
      · rcases List.mem_cons.1 h with h | h
        · exact .inr (h ▸ List.mem_cons_self)
        · exact (ih h).imp_right (List.mem_cons_of_mem _)

theorem lt_of_not_lt_of_ne {a b : String} (hlt : ¬ a < b) (hne : a ≠ b) : b < a :=
  Decidable.byContradiction fun h =>
    hne (String.le_antisymm (String.not_lt.1 h) (String.not_lt.1 hlt))

theorem pairwise_placeAt (key : String) (value : α) {l : List (String × α)}
    (h : l.Pairwise fun a b => a.1 < b.1) :
    (placeAt key value l).Pairwise fun a b => a.1 < b.1 := by
  induction l with
  | nil => simp [placeAt]
  | cons p rest ih =>
    obtain ⟨k, v⟩ := p
    obtain ⟨hk, hrest⟩ := List.pairwise_cons.1 h
    rw [placeAt]
    split
    · rename_i hlt
      refine List.pairwise_cons.2 ⟨fun e he => ?_, h⟩
      rcases List.mem_cons.1 he with rfl | he
      · exact hlt
      · exact String.lt_trans hlt (hk e he)
    · rename_i hlt
      split
      · rename_i heq
        exact List.pairwise_cons.2 ⟨fun e he => heq ▸ hk e he, hrest⟩
      · rename_i hne
        refine List.pairwise_cons.2 ⟨fun e he => ?_, ih hrest⟩
        rcases mem_placeAt he with rfl | he
        · exact lt_of_not_lt_of_ne hlt hne
        · exact hk e he

/-! ## Maps -/

def empty : OrderedMap α := ⟨[], .nil⟩

instance : EmptyCollection (OrderedMap α) := ⟨empty⟩
instance : Inhabited (OrderedMap α) := ⟨empty⟩

def find? (m : OrderedMap α) (key : String) : Option α := valueAt? key m.entries

def contains (m : OrderedMap α) (key : String) : Bool := (m.find? key).isSome

def insert (m : OrderedMap α) (key : String) (value : α) : OrderedMap α :=
  ⟨placeAt key value m.entries, pairwise_placeAt key value m.sorted⟩

def erase (m : OrderedMap α) (key : String) : OrderedMap α :=
  ⟨m.entries.filter fun e => e.1 ≠ key, m.sorted.filter _⟩

/-- The map with the value at a key changed, if there is one. -/
def modify (m : OrderedMap α) (key : String) (change : α → α) : OrderedMap α :=
  match m.find? key with
  | some value => m.insert key (change value)
  | none => m

def keys (m : OrderedMap α) : List String := m.entries.map (·.1)

def values (m : OrderedMap α) : List α := m.entries.map (·.2)

def size (m : OrderedMap α) : Nat := m.entries.length

def isEmpty (m : OrderedMap α) : Bool := m.entries.isEmpty

/-- The map of a list of pairs. A later pair replaces an earlier one with the same key. -/
def ofList (pairs : List (String × α)) : OrderedMap α :=
  pairs.foldl (fun m e => m.insert e.1 e.2) empty

/-- The map with all entries of `overlay`, which win against its own. -/
def merge (m overlay : OrderedMap α) : OrderedMap α :=
  overlay.entries.foldl (fun m e => m.insert e.1 e.2) m

def mapEntries (f : String → α → β) (m : OrderedMap α) : OrderedMap β :=
  ⟨m.entries.map fun e => (e.1, f e.1 e.2), List.pairwise_map.2 m.sorted⟩

def filter (test : String → α → Bool) (m : OrderedMap α) : OrderedMap α :=
  ⟨m.entries.filter fun e => test e.1 e.2, m.sorted.filter _⟩

def setOf (items : List String) : OrderedSet := ofList (items.map fun item => (item, ()))

def add (s : OrderedSet) (item : String) : OrderedSet := s.insert item ()

def addAll (s : OrderedSet) (items : List String) : OrderedSet := items.foldl add s

end OrderedMap

end EntityStore
