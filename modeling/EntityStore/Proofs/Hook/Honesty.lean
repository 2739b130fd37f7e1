import EntityStore.Proofs.Hook.Script
import EntityStore.Proofs.Transaction.Quiescence

/-!
# Hooks that make up no signal

The fixed checks and all scripts fail with errors that operations gave them, or with errors of their
own, and none of these asks for a restart. Of scripts this supposes that the registry from which
they make entities does not either.

Main statement: `Script.hooks_honest`.
-/

namespace EntityStore

namespace Program

variable {α β : Type} {signals : α → Prop} {signals' : β → Prop} {heard heard' : Prop}

theorem Honest.mono {p : Program α} (hp : p.Honest signals heard) (h : heard → heard') :
    p.Honest signals heard' := by
  induction p generalizing heard heard' with
  | done value => exact fun hsignal => h (hp hsignal)
  | ask op next ih => exact fun reply => ih reply (hp reply) (Or.imp_left h)

theorem Honest.andThen {p : Program α} {f : α → Program β} (hp : p.Honest signals heard)
    (hf : ∀ value, (f value).Honest signals' (signals value)) :
    (p.andThen f).Honest signals' heard := by
  induction p generalizing heard with
  | done value => exact (hf value).mono hp
  | ask op next ih => exact fun reply => ih reply (hp reply)

end Program

namespace Repair

variable {heard : Prop} {e : Entity}

theorem checkFields_honest (refs : List (String × DanglingPolicy)) (e : Entity) :
    (checkFields e refs).Honest HookOutcome.Signals heard := by
  induction refs generalizing e heard with
  | nil => exact nofun
  | cons ref rest ih =>
    obtain ⟨field, policy⟩ := ref
    unfold checkFields
    split
    · exact ih e
    · intro found
      dsimp only
      split
      · exact ih e
      · cases policy with
        | delete => exact fun reply hsignal => .inr hsignal
        | clear =>
          intro reply
          cases reply with
          | ok _ => exact ih _
          | error err => exact fun hsignal => .inr hsignal

theorem ifPresent_honest (reference : Option EntityId) {present absent : Program HookOutcome}
    (hpresent : present.Honest HookOutcome.Signals heard)
    (habsent : absent.Honest HookOutcome.Signals heard) :
    (ifPresent reference present absent).Honest HookOutcome.Signals heard := by
  cases reference with
  | none => exact habsent
  | some target =>
    intro found
    cases found with
    | true => exact hpresent.mono .inl
    | false => exact habsent.mono .inl

theorem checkOrder_honest (e : Entity) (customer : Option EntityId) (number : String) :
    (checkOrder e customer number).Honest HookOutcome.Signals heard := by
  cases customer with
  | none => exact nofun
  | some target =>
    intro reply
    cases reply with
    | ok other => exact nofun
    | error err =>
      dsimp only
      split
      · exact fun reply hsignal => .inr hsignal
      · intro hsignal
        cases hsignal
        exact .inr rfl

theorem checkRival_honest (e : Entity) (partner : Option EntityId) :
    (checkRival e partner).Honest HookOutcome.Signals heard := by
  cases partner with
  | none => exact nofun
  | some target =>
    intro reply
    cases reply with
    | error err =>
      intro hsignal
      cases hsignal
      exact .inr rfl
    | ok other =>
      dsimp only
      split
      · exact fun reply hsignal => .inr hsignal
      · exact nofun

theorem check_honest (e : Entity) : (check e).Honest HookOutcome.Signals heard := by
  have hleave : (leave e.body (.ok ())).Honest HookOutcome.Signals heard := nofun
  have hdelete : (deleteSelf e).Honest HookOutcome.Signals heard := fun _ hsignal => .inr hsignal
  unfold check
  split
  · exact hleave
  · exact checkOrder_honest e _ _
  · exact ifPresent_honest _ hleave hdelete
  · exact ifPresent_honest _ hleave nofun
  · split
    · exact hleave
    · exact ifPresent_honest _ hleave hdelete
  · exact checkRival_honest e _
  · exact checkFields_honest _ e
  · exact hleave

theorem hooks_honest : Repair.hooks.Honest := by
  intro hook e
  cases hook with
  | check => exact check_honest e
  | delete => exact nofun

end Repair

/-! ## Errors of entities and registries -/

theorem Properties.read_silent {α : Type} (p : Properties) (field : String)
    (reader : String → Except String α) : p.read field reader ≠ .error .integrityRestart := by
  unfold read
  split
  · simp
  · split <;> simp

theorem Body.update_silent (p : Properties) (b : Body) :
    (b.update p).1 ≠ .error .integrityRestart := by
  have hcounter : p.word? "counter" ≠ .error .integrityRestart := p.read_silent _ _
  have hnum : p.word? "num" ≠ .error .integrityRestart := p.read_silent _ _
  cases b with
  | rival partner counter =>
    rw [update]
    cases h : p.word? "counter" with
    | ok read => simp
    | error err => simpa [h] using hcounter
  | probe fields =>
    rw [update]
    cases h : p.word? "num" with
    | ok read => simp
    | error err => simpa [h] using hnum
  | _ => simp [update]

namespace Entity

theorem updated_silent (p : Properties) (e : Entity) : e.updated p ≠ .error .integrityRestart := by
  have hbody := e.body.update_silent p
  rw [updated, update]
  split
  · simp
  · rename_i err other heq
    split at heq
    · intro hsignal
      cases hsignal
      exact hbody (congrArg Prod.fst heq)
    · cases heq
      simp

theorem counter_silent (e : Entity) (field : String) :
    e.counter field ≠ .error .integrityRestart := by
  have hword (p : Properties) : (p.word? field).map (fun n => (n.getD 0).toNat) ≠
      .error .integrityRestart := by
    have hread : p.word? field ≠ .error .integrityRestart := p.read_silent _ _
    cases h : p.word? field with
    | ok n => simp [Except.map]
    | error err => simpa [h, Except.map] using hread
  unfold counter
  split
  · exact hword _
  · exact hword _
  · simp

end Entity

namespace Registry

/-- No constructor fails with the signal. -/
def Proper (r : Registry) : Prop :=
  ∀ tag make id, r.constructors.find? tag = some make → make id ≠ .error .integrityRestart

theorem Proper.registerWith {r : Registry} (hr : r.Proper) (tag : TypeTag) {make : Constructor}
    (hmake : ∀ id, make id ≠ .error .integrityRestart) : (r.registerWith tag make).Proper := by
  intro other make' id hfound
  rw [Registry.registerWith, OrderedMap.find?_insert] at hfound
  split at hfound
  · cases hfound
    exact hmake id
  · exact hr other make' id hfound

theorem Proper.register {r : Registry} (hr : r.Proper) (kind : Kind) : (r.register kind).Proper :=
  hr.registerWith _ fun _ => by simp

theorem proper_empty : empty.Proper := fun _ _ _ hfound => nomatch hfound

theorem proper_builtIn : builtIn.Proper :=
  List.foldlRecOn _ _ proper_empty fun _ hr kind _ => hr.register kind

theorem proper_ofSchema (schema : Schema) : (ofSchema schema).Proper := by
  intro tag make id hfound
  rw [ofSchema, OrderedMap.find?_mapEntries] at hfound
  obtain ⟨type, -, rfl⟩ := Option.map_eq_some_iff.1 hfound
  simp

theorem proper_standard (schema : Schema) : (standard schema).Proper := by
  refine Proper.register (List.foldlRecOn _ _ (proper_ofSchema schema) fun r hr kind _ => ?_) _
  rw [registerIfFree]
  split
  · exact hr
  · exact hr.register kind

theorem Proper.materialize {r : Registry} (hr : r.Proper) (p : Properties) :
    r.materialize p ≠ .error .integrityRestart := by
  unfold Registry.materialize
  split
  · simp
  · rename_i tag _
    split
    · simp
    · rename_i id _
      unfold create
      cases hfound : r.constructors.find? tag with
      | none => simp [Except.bind]
      | some make =>
        have hmake := hr tag make id hfound
        dsimp only
        cases hmade : make id with
        | error err => simpa [hmade, Except.bind] using hmake
        | ok e => exact e.updated_silent p

end Registry

/-! ## Scripts -/

namespace Script

/-- The outcome of an action is the signal. -/
def Signals (outcome : Entity × Result Unit) : Prop := outcome.2 = .error .integrityRestart

variable {heard : Prop} {registry : Registry}

theorem bump_honest (e : Entity) (field : String) (limit : Nat) :
    (bump e field limit).Honest Signals heard := by
  have hcounter := e.counter_silent field
  unfold bump
  split
  · rename_i err heq
    intro hsignal
    exact absurd (heq.trans (congrArg _ (Except.error.inj hsignal))) hcounter
  · split
    · exact nofun
    · exact fun reply hsignal => .inr hsignal

theorem perform_honest (hregistry : registry.Proper) (e : Entity) (act : Act) :
    (perform registry e act).Honest Signals heard := by
  cases act with
  | delete _ | deleteSelf | mark _ _ | persistSelf | commit | rollback | set _ _ =>
    exact fun reply hsignal => .inr hsignal
  | setQuietly _ _ | repair | fail _ =>
    intro hsignal
    cases hsignal
  | require target =>
    intro reply hsignal
    cases reply with
    | ok other => cases hsignal
    | error err =>
      cases hsignal
      exact .inr rfl
  | bump field limit => exact bump_honest e field limit
  | deleteEntity target =>
    intro reply
    cases reply with
    | error err =>
      intro hsignal
      cases hsignal
      exact .inr rfl
    | ok other => exact fun reply hsignal => .inr hsignal
  | setOther target field value =>
    intro reply
    cases reply with
    | error err =>
      intro hsignal
      cases hsignal
      exact .inr rfl
    | ok other =>
      have hfield : other.withField field value ≠ .error .integrityRestart :=
        other.updated_silent _
      dsimp only
      split
      · rename_i err heq
        intro hsignal
        exact absurd (heq.trans (congrArg _ (Except.error.inj hsignal))) hfield
      · exact fun reply hsignal => .inr hsignal
  | persist snapshot =>
    have hmade := hregistry.materialize snapshot
    rw [perform]
    split
    · rename_i err heq
      intro hsignal
      exact absurd (heq.trans (congrArg _ (Except.error.inj hsignal))) hmade
    · exact fun reply hsignal => .inr hsignal
  | look target =>
    intro _ _ _ _ hsignal
    cases hsignal
  | find query =>
    intro _ _ hsignal
    cases hsignal

theorem guarding_honest (target : Option EntityId) (skipIf : Bool) {skip go : Program HookOutcome}
    (hskip : skip.Honest HookOutcome.Signals heard) (hgo : go.Honest HookOutcome.Signals heard) :
    (guarding target skipIf skip go).Honest HookOutcome.Signals heard := by
  cases target with
  | none => exact hgo
  | some id =>
    intro found
    dsimp only
    split
    · exact hskip.mono .inl
    · exact hgo.mono .inl

theorem run_honest (hregistry : registry.Proper) (script : Script) (e : Entity) :
    (run registry script e).Honest HookOutcome.Signals heard := by
  induction script generalizing e heard with
  | nil => exact nofun
  | cons action rest ih =>
    unfold run
    refine guarding_honest _ _ (ih e) (guarding_honest _ _ (ih e) ?_)
    refine (perform_honest hregistry e action.act).andThen fun outcome => ?_
    dsimp only
    split
    · exact fun _ => ih _
    · split
      · rename_i err heq
        intro hsignal
        exact heq.trans (congrArg _ (Except.error.inj hsignal))
      · exact ih _

/-- No hook that a store comes with makes the signal up. -/
theorem hooks_honest (hregistry : registry.Proper) (scripts : Scripts) :
    (hooks registry scripts).Honest := by
  intro hook e
  obtain ⟨id, body⟩ := e
  cases body with
  | probe fields => exact fun _ => run_honest hregistry _ _
  | _ => exact Repair.hooks_honest hook _

end Script

end EntityStore
