/-!
# Sorting

Lists put in order by insertion. Items that are level keep their order. Texts come out the same
whatever the order in which they were given (`sortTexts_eq_of_perm`).
-/

namespace EntityStore

variable {α : Type}

/-- The list with an item put in front of the first that it does not come after. -/
def insertSorted (notAfter : α → α → Bool) (item : α) : List α → List α
  | [] => [item]
  | x :: rest =>
    if notAfter item x then item :: x :: rest else x :: insertSorted notAfter item rest

def sortBy (notAfter : α → α → Bool) : List α → List α
  | [] => []
  | x :: rest => insertSorted notAfter x (sortBy notAfter rest)

/-- Texts in order of their code points. -/
def sortTexts (texts : List String) : List String := sortBy (fun a b => decide (a ≤ b)) texts

variable {notAfter : α → α → Bool}

theorem insertSorted_perm (item : α) (l : List α) :
    (insertSorted notAfter item l).Perm (item :: l) := by
  induction l with
  | nil => exact .refl _
  | cons x rest ih =>
    rw [insertSorted]
    split
    · exact .refl _
    · exact (ih.cons x).trans (.swap item x rest)

theorem sortBy_perm (l : List α) : (sortBy notAfter l).Perm l := by
  induction l with
  | nil => exact .refl _
  | cons x rest ih => exact (insertSorted_perm x _).trans (ih.cons x)

/-- A list that is in order stays as it is. -/
theorem sortBy_eq_self {l : List α} (h : l.Pairwise fun a b => notAfter a b) :
    sortBy notAfter l = l := by
  induction l with
  | nil => rfl
  | cons x rest ih =>
    obtain ⟨hx, hrest⟩ := List.pairwise_cons.1 h
    rw [sortBy, ih hrest]
    cases rest with
    | nil => rfl
    | cons y rest => rw [insertSorted, if_pos (hx y List.mem_cons_self)]

section Ordered

variable (htotal : ∀ a b, notAfter a b = true ∨ notAfter b a = true)
  (htrans : ∀ {a b c}, notAfter a b = true → notAfter b c = true → notAfter a c = true)
include htotal htrans

theorem pairwise_insertSorted (item : α) {l : List α} (h : l.Pairwise fun a b => notAfter a b) :
    (insertSorted notAfter item l).Pairwise fun a b => notAfter a b := by
  induction l with
  | nil => exact List.pairwise_singleton _ _
  | cons x rest ih =>
    obtain ⟨hx, hrest⟩ := List.pairwise_cons.1 h
    rw [insertSorted]
    split
    · rename_i hle
      refine List.pairwise_cons.2 ⟨fun y hy => ?_, h⟩
      rcases List.mem_cons.1 hy with rfl | hy
      · exact hle
      · exact htrans hle (hx y hy)
    · rename_i hnot
      refine List.pairwise_cons.2 ⟨fun y hy => ?_, ih hrest⟩
      rcases List.mem_cons.1 ((insertSorted_perm item rest).mem_iff.1 hy) with rfl | hy
      · exact (htotal y x).resolve_left hnot
      · exact hx y hy

theorem pairwise_sortBy (l : List α) : (sortBy notAfter l).Pairwise fun a b => notAfter a b := by
  induction l with
  | nil => exact .nil
  | cons x rest ih => exact pairwise_insertSorted htotal htrans x ih

end Ordered

/-- Sorted texts do not depend on the order in which they were given. -/
theorem sortTexts_eq_of_perm {l m : List String} (h : l.Perm m) : sortTexts l = sortTexts m := by
  have sorted : ∀ texts, (sortTexts texts).Pairwise fun a b => decide (a ≤ b) = true :=
    pairwise_sortBy (fun a b => by simpa using String.le_total a b)
      fun hab hbc => by simpa using String.le_trans (by simpa using hab) (by simpa using hbc)
  refine List.Perm.eq_of_pairwise (fun a b _ _ hab hba => ?_) (sorted l) (sorted m)
    (((sortBy_perm l).trans h).trans (sortBy_perm m).symm)
  exact String.le_antisymm (by simpa using hab) (by simpa using hba)

end EntityStore
