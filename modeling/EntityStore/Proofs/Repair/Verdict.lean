import EntityStore.Hook.Repair
import EntityStore.OrderedMap.Lemmas

/-!
# What a check decides

The decision about an entity that is checked, as a function of what can be seen: the entity is kept,
mended, removed or refused. Main statements: a mended record has lost exactly the dangling
references that may be cleared (`find?_mendFields`), and the references of whatever is kept or
mended stand for something (`sees_of_keep`, `sees_of_mend`).
-/

namespace EntityStore

namespace Repair

/-- What becomes of an entity that is checked. -/
inductive Verdict where
  | keep
  | mend (body : Body)
  | remove
  | refuse (err : StoreError)

/-- The fields of a record without its dangling references, unless one of them must not dangle. -/
def mendFields (sees : EntityId → Bool) :
    List (String × DanglingPolicy) → Properties → Option Properties
  | [], fields => some fields
  | (field, policy) :: rest, fields =>
    match Properties.text? fields field with
    | none => mendFields sees rest fields
    | some target =>
      if sees target then mendFields sees rest fields
      else
        match policy with
        | .delete => none
        | .clear => mendFields sees rest (fields.insert field none)

/-- What is decided about an entity, given which ids stand for something and which are found. -/
def verdict (sees found : EntityId → Bool) (e : Entity) : Verdict :=
  match e.body with
  | .order (some customer) number => if found customer then .keep else .mend (.order none number)
  | .orderLine order _ => if order.any sees then .keep else .remove
  | .attachment order => if order.any sees then .keep else .refuse (missingMaster e)
  | .node parent => if parent.all sees then .keep else .remove
  | .record type schema fields =>
    match mendFields sees schema.references.entries fields with
    | none => .remove
    | some mended => if mended = fields then .keep else .mend (.record type schema mended)
  | _ => .keep

/-- Whether a check looks after nothing but its own entity, as those of all but rivals and probes
do. -/
def tendsItself (e : Entity) : Bool :=
  match e.body with
  | .rival .. | .probe .. => false
  | _ => true

/-- A reference field with a policy whose target is gone. -/
def Lost (gone : EntityId → Prop) (refs : List (String × DanglingPolicy)) (fields : Properties)
    (policy : DanglingPolicy) (field : String) : Prop :=
  (field, policy) ∈ refs ∧ ∃ target, Properties.text? fields field = some target ∧ gone target

section Fields

variable {sees : EntityId → Bool} {refs : List (String × DanglingPolicy)}
  {fields mended : Properties} {field : String}

/-- Mending only ever sets fields to null. -/
theorem text?_of_mendFields {sees : EntityId → Bool} {refs : List (String × DanglingPolicy)}
    {fields mended : Properties} (h : mendFields sees refs fields = some mended) {field : String}
    {target : String} (ht : Properties.text? mended field = some target) :
    Properties.text? fields field = some target := by
  induction refs generalizing fields with
  | nil =>
    cases h
    exact ht
  | cons ref rest ih =>
    obtain ⟨f, policy⟩ := ref
    unfold mendFields at h
    split at h
    · exact ih h
    · split at h
      · exact ih h
      · cases policy with
        | delete => simp at h
        | clear =>
          have := ih h
          rw [Properties.text?, OrderedMap.find?_insert] at this
          split at this
          · simp at this
          · exact this

/-- A record is removed for a field that must not dangle and does. -/
theorem exists_lost_of_mendFields (h : mendFields sees refs fields = none) :
    ∃ field, Lost (sees · = false) refs fields .delete field := by
  induction refs generalizing fields with
  | nil => simp [mendFields] at h
  | cons ref rest ih =>
    obtain ⟨f, policy⟩ := ref
    have later : ∀ {p : Properties}, (∀ {g t}, Properties.text? p g = some t →
        Properties.text? fields g = some t) → (∃ g, Lost (sees · = false) rest p .delete g) →
        ∃ g, Lost (sees · = false) ((f, policy) :: rest) fields .delete g := by
      rintro p hp ⟨g, hmem, t, ht, hsees⟩
      exact ⟨g, List.mem_cons_of_mem _ hmem, t, hp ht, hsees⟩
    unfold mendFields at h
    split at h
    · exact later id (ih h)
    · rename_i target htext
      split at h
      · exact later id (ih h)
      · rename_i hsees
        cases policy with
        | delete => exact ⟨f, List.mem_cons_self, target, htext, by simpa using hsees⟩
        | clear =>
          refine later (fun {g t} ht => ?_) (ih h)
          rw [Properties.text?, OrderedMap.find?_insert] at ht
          split at ht
          · simp at ht
          · exact ht

theorem lost_cons_iff {gone : EntityId → Prop} {f : String} {policy p : DanglingPolicy}
    (h : ∀ target, Properties.text? fields f = some target → ¬ gone target) :
    Lost gone ((f, policy) :: refs) fields p field ↔ Lost gone refs fields p field := by
  simp only [Lost, List.mem_cons, Prod.mk.injEq]
  constructor
  · rintro ⟨⟨rfl, rfl⟩ | hmem, target, ht, hs⟩
    · exact absurd hs (h target ht)
    · exact ⟨hmem, target, ht, hs⟩
  · rintro ⟨hmem, ht⟩
    exact ⟨.inr hmem, ht⟩

/-- A mended record has lost nothing but the dangling references that may be cleared. -/
theorem find?_mendFields (hrefs : refs.Pairwise fun a b => a.1 < b.1)
    (h : mendFields sees refs fields = some mended) (field : String) :
    (Lost (sees · = false) refs fields .clear field → mended.find? field = some none) ∧
      (¬ Lost (sees · = false) refs fields .clear field →
        mended.find? field = fields.find? field) ∧
      ¬ Lost (sees · = false) refs fields .delete field := by
  induction refs generalizing fields with
  | nil =>
    cases h
    simp [Lost]
  | cons ref rest ih =>
    obtain ⟨f, policy⟩ := ref
    obtain ⟨hfirst, hrest⟩ := List.pairwise_cons.1 hrefs
    -- fields are in strict order, so what is cleared here is not looked at again
    have hnot : ∀ p, (f, p) ∉ rest := fun p hp => String.lt_irrefl f (hfirst (f, p) hp)
    unfold mendFields at h
    split at h
    · rename_i htext
      have hseen : ∀ t, Properties.text? fields f = some t → ¬ sees t = false := by simp [htext]
      rw [lost_cons_iff hseen, lost_cons_iff hseen]
      exact ih hrest h
    · rename_i target htext
      split at h
      · rename_i hsees
        have hseen : ∀ t, Properties.text? fields f = some t → ¬ sees t = false := by
          simp [htext, hsees]
        rw [lost_cons_iff hseen, lost_cons_iff hseen]
        exact ih hrest h
      · rename_i hsees
        cases policy with
        | delete => simp at h
        | clear =>
          have hih := ih hrest h
          by_cases hf : f = field
          · subst hf
            have hlost : Lost (sees · = false) ((f, .clear) :: rest) fields .clear f :=
              ⟨List.mem_cons_self, target, htext, by simpa using hsees⟩
            have hfree : ¬ Lost (sees · = false) rest (fields.insert f none) .clear f :=
              fun hl => hnot _ hl.1
            refine ⟨fun _ => ?_, fun hl => absurd hlost hl, ?_⟩
            · rw [hih.2.1 hfree, OrderedMap.find?_insert, if_pos rfl]
            · rintro ⟨hmem, -⟩
              rcases List.mem_cons.1 hmem with heq | hmem
              · simp at heq
              · exact hnot _ hmem
          · have hfind : (fields.insert f none).find? field = fields.find? field := by simp [hf]
            have hsame : ∀ p, Lost (sees · = false) ((f, .clear) :: rest) fields p field ↔
                Lost (sees · = false) rest (fields.insert f none) p field := by
              intro p
              simp only [Lost, List.mem_cons, Prod.mk.injEq, Properties.text?, hfind, Ne.symm hf,
                false_and, false_or]
            rw [hsame, hsame, ← hfind]
            exact hih

/-- A record all of whose references stand for something stays as it is. -/
theorem mendFields_eq_self
    (h : ∀ ref ∈ refs, ∀ target, Properties.text? fields ref.1 = some target →
      sees target = true) : mendFields sees refs fields = some fields := by
  induction refs with
  | nil => rfl
  | cons ref rest ih =>
    obtain ⟨f, policy⟩ := ref
    have hrest := ih fun ref hmem => h ref (List.mem_cons_of_mem _ hmem)
    unfold mendFields
    split
    · exact hrest
    · rename_i target htext
      rw [if_pos (h _ List.mem_cons_self target htext)]
      exact hrest

theorem mem_recordReferences_iff {schema : TypeSchema} {target : EntityId} :
    target ∈ Body.recordReferences schema fields ↔
      ∃ field policy, schema.references.find? field = some policy ∧
        Properties.text? fields field = some target := by
  simp only [Body.recordReferences, List.mem_filterMap, OrderedMap.mem_keys_iff,
    OrderedMap.contains_iff]
  constructor
  · rintro ⟨field, ⟨policy, hp⟩, ht⟩
    exact ⟨field, policy, hp, ht⟩
  · rintro ⟨field, policy, hp, ht⟩
    exact ⟨field, ⟨policy, hp⟩, ht⟩

end Fields

section Decisions

variable {sees found : EntityId → Bool} {e : Entity} {body : Body}

/-- All references of a mended record stand for something. -/
theorem sees_of_mendFields {schema : TypeSchema} {fields mended : Properties}
    (h : mendFields sees schema.references.entries fields = some mended) :
    ∀ id ∈ Body.recordReferences schema mended, sees id = true := by
  intro id hid
  obtain ⟨field, policy, hpolicy, htext⟩ := mem_recordReferences_iff.1 hid
  obtain ⟨hclear, -, hdelete⟩ := find?_mendFields schema.references.sorted h field
  cases hsees : sees id with
  | true => rfl
  | false =>
    have hlost : Lost (sees · = false) schema.references.entries fields policy field :=
      ⟨OrderedMap.mem_entries_iff.2 hpolicy, id, text?_of_mendFields h htext, hsees⟩
    cases policy with
    | clear => simp [Properties.text?, hclear hlost] at htext
    | delete => exact absurd hlost hdelete

/-- All references of an entity that is kept stand for something. -/
theorem sees_of_keep (he : tendsItself e = true) (hfound : ∀ id, found id = true → sees id = true)
    (h : verdict sees found e = .keep) : ∀ id ∈ e.references, sees id = true := by
  obtain ⟨id, body⟩ := e
  cases body with
  | customer name => simp [Entity.references, Body.references]
  | order customer number =>
    cases customer with
    | none => simp [Entity.references, Body.references]
    | some customer => simp_all [verdict, Entity.references, Body.references]
  | orderLine order product =>
    cases order <;> simp_all [verdict, Entity.references, Body.references]
  | attachment order => cases order <;> simp_all [verdict, Entity.references, Body.references]
  | node parent => cases parent <;> simp_all [verdict, Entity.references, Body.references]
  | rival partner counter => simp [tendsItself] at he
  | record type schema fields =>
    simp only [verdict] at h
    split at h
    · simp at h
    · rename_i mended hmend
      split at h
      · rename_i heq
        exact sees_of_mendFields (heq ▸ hmend)
      · simp at h
  | probe fields => simp [tendsItself] at he

/-- All references of an entity that is mended stand for something afterwards. -/
theorem sees_of_mend (h : verdict sees found e = .mend body) :
    tendsItself ⟨e.id, body⟩ = true ∧ ∀ id ∈ body.references, sees id = true := by
  unfold verdict at h
  split at h
  · split at h
    · simp at h
    · cases h
      simp [tendsItself, Body.references]
  · split at h <;> simp at h
  · split at h <;> simp at h
  · split at h <;> simp at h
  · split at h
    · simp at h
    · rename_i mended hmend
      split at h
      · simp at h
      · cases h
        exact ⟨rfl, sees_of_mendFields hmend⟩
  · simp at h

end Decisions

end Repair

end EntityStore
