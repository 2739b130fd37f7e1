import EntityStore.Files.Folder
import EntityStore.OrderedMap.Lemmas

/-!
# Reading what was written

Whether a file can be written does not depend on what is written, and what has been written to a
path is what is read from it (`Folder.read_of_write`). A walk that succeeds passes through
directories only, so it does not depend on the files that there are.
-/

namespace EntityStore.Folder

variable {f g : Folder} {path contents : String}

theorem enter_ok {level next : Level} {segment : String} (h : f.enter level segment = .ok next)
    (g : Folder) : g.enter level segment = .ok next := by
  unfold enter at h ⊢
  split
  · rwa [if_pos ‹_›] at h
  · rw [if_neg ‹_›] at h
    split
    · rwa [if_pos ‹_›] at h
    · rw [if_neg ‹_›] at h
      split at h <;> cases h

theorem walk_ok {segments : List String} {level last : Level}
    (h : segments.foldlM f.enter level = .ok last) (g : Folder) :
    segments.foldlM g.enter level = .ok last := by
  induction segments generalizing level with
  | nil => exact h
  | cons segment rest ih =>
    rw [List.foldlM_cons] at h ⊢
    cases henter : f.enter level segment with
    | error fault =>
      rw [henter] at h
      cases h
    | ok next =>
      rw [henter] at h
      rw [enter_ok henter]
      exact ih h

theorem resolve_ok {place : Place} (h : f.resolve path = .ok place) (g : Folder) :
    g.resolve path = .ok place := by
  unfold resolve at h ⊢
  split at h
  · cases h
  · split at h
    · cases h
    · split at h
      · cases h
      · rw [if_neg ‹_›, if_neg ‹_›, if_neg ‹_›]
        split at h
        · cases h
        · rename_i level hwalk
          rw [walk_ok hwalk]
          exact h

/-- A path to which a file can be written, and the name that the file has. -/
theorem write_eq_ok_iff : f.write path contents = .ok g ↔
    ∃ level name, f.resolve path = .ok (.entry level name) ∧ endsInSlash path = false ∧
      ¬ nameLimit < name.utf8ByteSize ∧ g = f.insert (level.key name) contents := by
  constructor
  · intro h
    unfold write at h
    split at h
    · cases h
    · cases h
    · rename_i level name hresolve
      split at h
      · cases h
      · rename_i hslash
        split at h
        · cases h
        · rename_i hlimit
          cases h
          exact ⟨level, name, hresolve, by simpa using hslash, hlimit, rfl⟩
  · rintro ⟨level, name, hresolve, hslash, hlimit, rfl⟩
    simp [write, hresolve, hslash, hlimit]

theorem exists_write (h : f.write path contents = .ok g) (other : String) :
    ∃ g', f.write path other = .ok g' := by
  obtain ⟨level, name, hresolve, hslash, hlimit, -⟩ := write_eq_ok_iff.1 h
  exact ⟨_, write_eq_ok_iff.2 ⟨level, name, hresolve, hslash, hlimit, rfl⟩⟩

/-- What has been written is read. -/
theorem read_of_write (h : f.write path contents = .ok g) : g.read path = .ok (.text contents) := by
  obtain ⟨level, name, hresolve, hslash, hlimit, rfl⟩ := write_eq_ok_iff.1 h
  have hfound : lookUp (f.insert (level.key name) contents) level name = .ok contents := by
    simp [lookUp, hlimit]
  unfold read
  rw [resolve_ok hresolve]
  simp [hfound, hslash]

end EntityStore.Folder
