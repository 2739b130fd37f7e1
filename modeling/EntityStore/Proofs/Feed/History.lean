import EntityStore.Feed

/-!
# What a feed keeps

A feed numbers the change sets that it publishes from one and keeps the last of them. Those who poll
get the first of what is kept after their place.

Main statements: what a feed has published stays published as it goes on (`Feed.Published.emit`),
and a poll gives a stretch of it that begins right after the cursor, as long as nothing after the
cursor has had to make room (`Feed.Published.poll_of_kept`).
-/

namespace EntityStore.Feed

variable {f : Feed} {changes : List ChangeSet}

/-- The change sets that a feed has published, oldest first, numbered from one. Those who poll get
the last of them. -/
structure Published (f : Feed) (changes : List ChangeSet) : Prop where
  numbers : changes.map (·.sequence.number) = List.range' 1 changes.length
  latest : f.latest = ⟨changes.length⟩
  history : f.history = keepLast f.maxHistory changes

theorem published_new (maxHistory : Nat) : (new maxHistory).Published [] :=
  ⟨rfl, rfl, by simp [keepLast, new]⟩

theorem keepLast_append (limit : Nat) (changes : List ChangeSet) (c : ChangeSet) :
    keepLast limit (keepLast limit changes ++ [c]) = keepLast limit (changes ++ [c]) := by
  rw [keepLast, keepLast, keepLast, ← List.drop_append_of_le_length (by omega), List.drop_drop]
  congr 1
  simp only [List.length_append, List.length_drop, List.length_singleton]
  omega

theorem Published.emit (h : f.Published changes) (c : ChangeSet) :
    (f.emit c).2.Published (changes ++ [{ c with sequence := ⟨changes.length + 1⟩ }]) where
  numbers := by
    rw [List.map_append, h.numbers, List.length_append, List.map_singleton, List.length_singleton,
      List.range'_1_concat, Nat.add_comm 1]
  latest := by
    rw [Feed.emit, h.latest, List.length_append]
    rfl
  history := by
    simp only [Feed.emit, h.latest, h.history, keepLast_append]
    rfl

theorem Published.eq_history (h : f.Published changes) (hroom : f.latest.number ≤ f.maxHistory) :
    changes = f.history := by
  rw [h.history, keepLast, Nat.sub_eq_zero_of_le, List.drop_zero]
  rw [h.latest] at hroom
  exact hroom

/-! ## Places in what is published -/

/-- In a stretch of consecutive numbers, those after a place are what is left when those up to it
are dropped. -/
theorem filter_eq_drop {first : Nat}
    (h : changes.map (·.sequence.number) = List.range' first changes.length) (place : Nat) :
    (changes.filter fun c => place < c.sequence.number) = changes.drop (place + 1 - first) := by
  induction changes generalizing first with
  | nil => simp
  | cons c rest ih =>
    rw [List.map_cons, List.length_cons, List.range'_succ, List.cons.injEq] at h
    obtain ⟨hfirst, hrest⟩ := h
    have hdrop := ih hrest
    -- if the first is after the place, so are all, and none is dropped
    by_cases hplace : place < first
    · have hzero : place + 1 - first = 0 := by omega
      have hzero' : place + 1 - (first + 1) = 0 := by omega
      rw [hzero', List.drop_zero] at hdrop
      rw [List.filter_cons_of_pos (by simpa [hfirst] using hplace), hdrop, hzero, List.drop_zero]
    · have hsucc : place + 1 - first = (place + 1 - (first + 1)) + 1 := by omega
      rw [List.filter_cons_of_neg (by simpa [hfirst] using hplace), hdrop, hsucc,
        List.drop_succ_cons]

theorem filter_eq_take {first : Nat}
    (h : changes.map (·.sequence.number) = List.range' first changes.length) (place : Nat) :
    (changes.filter fun c => c.sequence.number ≤ place) = changes.take (place + 1 - first) := by
  induction changes generalizing first with
  | nil => simp
  | cons c rest ih =>
    rw [List.map_cons, List.length_cons, List.range'_succ, List.cons.injEq] at h
    obtain ⟨hfirst, hrest⟩ := h
    have htake := ih hrest
    by_cases hplace : first ≤ place
    · have hsucc : place + 1 - first = (place + 1 - (first + 1)) + 1 := by omega
      rw [List.filter_cons_of_pos (by simpa [hfirst] using hplace), htake, hsucc,
        List.take_succ_cons]
    · have hzero : place + 1 - first = 0 := by omega
      have hzero' : place + 1 - (first + 1) = 0 := by omega
      rw [hzero', List.take_zero] at htake
      rw [List.filter_cons_of_neg (by simpa [hfirst] using hplace), htake, hzero, List.take_zero]

namespace Published

theorem after (h : f.Published changes) (place : Nat) :
    (changes.filter fun c => place < c.sequence.number) = changes.drop place :=
  filter_eq_drop h.numbers place

theorem mem_drop_iff (h : f.Published changes) {place : Nat} {c : ChangeSet} :
    c ∈ changes.drop place ↔ c ∈ changes ∧ place < c.sequence.number := by
  rw [← h.after, List.mem_filter, decide_eq_true_iff]

theorem sequence_of_getElem? (h : f.Published changes) {i : Nat} {c : ChangeSet}
    (hc : changes[i]? = some c) : c.sequence = ⟨i + 1⟩ := by
  obtain ⟨hi, -⟩ := List.getElem?_eq_some_iff.1 hc
  have hnumber := congrArg (fun numbers => numbers[i]?) h.numbers
  simp only [List.getElem?_map, hc, List.getElem?_range' hi, Option.map_some,
    Option.some.injEq] at hnumber
  rw [Nat.one_mul, Nat.add_comm] at hnumber
  exact congrArg SequenceNumber.mk hnumber

theorem nodup (h : f.Published changes) : changes.Nodup := by
  have hnumbers : (changes.map (·.sequence.number)).Nodup := by
    rw [h.numbers]
    exact List.nodup_range'
  exact (List.pairwise_map.1 hnumbers).imp fun hne heq =>
    hne (congrArg (fun c : ChangeSet => c.sequence.number) heq)

theorem number_le (h : f.Published changes) {c : ChangeSet} (hc : c ∈ changes) :
    c.sequence.number ≤ changes.length := by
  have hnumber : c.sequence.number ∈ List.range' 1 changes.length :=
    h.numbers ▸ List.mem_map_of_mem hc
  have := List.mem_range'_1.1 hnumber
  omega

theorem between (h : f.Published changes) (first last : Nat) :
    (changes.filter fun c => first < c.sequence.number ∧ c.sequence.number ≤ last) =
      (changes.take last).drop first := by
  have hrest : (changes.drop first).map (·.sequence.number) =
      List.range' (1 + first) (changes.drop first).length := by
    rw [List.map_drop, h.numbers, List.drop_range', List.length_drop, Nat.mul_one]
  have hplace : last + 1 - (1 + first) = last - first := by omega
  rw [List.drop_take, ← hplace, ← filter_eq_take hrest, ← h.after, List.filter_filter]
  simp only [Bool.decide_and, Bool.and_comm]

theorem mem_history_iff (h : f.Published changes) {c : ChangeSet} :
    c ∈ f.history ↔ c ∈ changes ∧ changes.length - f.maxHistory < c.sequence.number := by
  rw [h.history, keepLast, h.mem_drop_iff]

/-- If nothing after their place has had to make room, those who poll get what comes next. -/
theorem poll_of_kept (h : f.Published changes) {cursor : SequenceNumber}
    (hkept : ∀ c ∈ changes, cursor.number < c.sequence.number → c ∈ f.history) (limit : Nat) :
    f.poll cursor limit = (changes.drop cursor.number).take limit := by
  rw [Feed.poll, ← h.after, h.history, keepLast, ← h.after, List.filter_filter]
  congr 1
  refine List.filter_congr fun c hc => ?_
  rw [Bool.and_eq_left_iff_imp, decide_eq_true_iff, decide_eq_true_iff]
  exact fun hlt => (h.mem_history_iff.1 (hkept c hc hlt)).2

theorem history_suffix (h : f.Published changes) :
    (∃ gone, changes = gone ++ f.history) ∧
      f.history.length = min f.maxHistory changes.length := by
  rw [h.history, keepLast]
  refine ⟨⟨changes.take (changes.length - f.maxHistory), (List.take_append_drop _ _).symm⟩, ?_⟩
  rw [List.length_drop]
  omega

end Published

end EntityStore.Feed
