/-!
# Splitting texts

Where a text falls apart at a character. Texts are given as their characters, and the character at
which they are split is in none of the parts. Of the two halves, the one on whose side the character
was looked for does not have it (`splitFirst_eq_some_iff`, `splitLast_eq_some_iff`).
-/

namespace EntityStore.Text

/-- The characters before and after the first occurrence of one. -/
def splitFirst (c : Char) : List Char → Option (List Char × List Char)
  | [] => none
  | x :: rest =>
    if x = c then some ([], rest)
    else (splitFirst c rest).map fun parts => (x :: parts.1, parts.2)

def splitLast (c : Char) : List Char → Option (List Char × List Char)
  | [] => none
  | x :: rest =>
    match splitLast c rest with
    | some parts => some (x :: parts.1, parts.2)
    | none => if x = c then some ([], rest) else none

/-- The parts between all occurrences of a character. There is one part more than occurrences. -/
def splitAll (c : Char) : List Char → List (List Char)
  | [] => [[]]
  | x :: rest =>
    if x = c then [] :: splitAll c rest
    else
      match splitAll c rest with
      | [] => [[x]]
      | part :: parts => (x :: part) :: parts

/-! ## Halves -/

variable {c : Char} {s before after : List Char}

theorem splitFirst_eq_none_iff : splitFirst c s = none ↔ c ∉ s := by
  induction s with
  | nil => simp [splitFirst]
  | cons x rest ih =>
    by_cases heq : x = c
    · simp [splitFirst, heq]
    · simp [splitFirst, heq, ih, Ne.symm heq]

theorem splitFirst_append (h : c ∉ before) :
    splitFirst c (before ++ c :: after) = some (before, after) := by
  induction before with
  | nil => simp [splitFirst]
  | cons x before ih =>
    obtain ⟨hne, hrest⟩ := not_or.1 (mt List.mem_cons.2 h)
    rw [List.cons_append, splitFirst, if_neg (Ne.symm hne), ih hrest]
    rfl

theorem eq_of_splitFirst (h : splitFirst c s = some (before, after)) :
    s = before ++ c :: after ∧ c ∉ before := by
  induction s generalizing before with
  | nil => cases h
  | cons x rest ih =>
    rw [splitFirst] at h
    split at h
    · rename_i heq
      cases h
      exact ⟨by rw [heq, List.nil_append], List.not_mem_nil⟩
    · rename_i hne
      obtain ⟨parts, hparts, heq⟩ := Option.map_eq_some_iff.1 h
      cases heq
      obtain ⟨rfl, hfront⟩ := ih hparts
      exact ⟨rfl, List.not_mem_cons_of_ne_of_not_mem (Ne.symm hne) hfront⟩

/-- The first half does not have the character. -/
theorem splitFirst_eq_some_iff :
    splitFirst c s = some (before, after) ↔ s = before ++ c :: after ∧ c ∉ before :=
  ⟨eq_of_splitFirst, fun h => h.1 ▸ splitFirst_append h.2⟩

theorem splitLast_eq_none_iff : splitLast c s = none ↔ c ∉ s := by
  induction s with
  | nil => simp [splitLast]
  | cons x rest ih =>
    rw [splitLast, List.mem_cons, not_or, ← ih]
    cases splitLast c rest with
    | some parts => simp
    | none => simp [eq_comm]

theorem splitLast_append (h : c ∉ after) :
    splitLast c (before ++ c :: after) = some (before, after) := by
  induction before with
  | nil => simp [splitLast, splitLast_eq_none_iff.2 h]
  | cons x before ih => rw [List.cons_append, splitLast, ih]

theorem eq_of_splitLast (h : splitLast c s = some (before, after)) :
    s = before ++ c :: after ∧ c ∉ after := by
  induction s generalizing before with
  | nil => cases h
  | cons x rest ih =>
    rw [splitLast] at h
    split at h
    · rename_i parts hparts
      cases h
      obtain ⟨heq, hback⟩ := ih hparts
      exact ⟨by rw [heq, List.cons_append], hback⟩
    · rename_i hnone
      split at h
      · rename_i heq
        cases h
        exact ⟨by rw [heq, List.nil_append], splitLast_eq_none_iff.1 hnone⟩
      · cases h

/-- The second half does not have the character. -/
theorem splitLast_eq_some_iff :
    splitLast c s = some (before, after) ↔ s = before ++ c :: after ∧ c ∉ after :=
  ⟨eq_of_splitLast, fun h => h.1 ▸ splitLast_append h.2⟩

end EntityStore.Text
