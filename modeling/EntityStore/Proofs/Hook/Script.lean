import EntityStore.Hook.Script
import EntityStore.Proofs.Transaction.Adjustments

/-!
# What scripted hooks ask for

Neither the fixed checks nor any script changes the settings of a transaction or registers a
callback, so what holds of hooks that leave these alone holds of all hooks that a store comes with
(`Script.hooks_ask`).
-/

namespace EntityStore

/-- Operations other than those that change settings or register callbacks. -/
def Operation.Plain : Operation → Prop
  | .afterCommit _ | .setAutoCommit _ | .setIgnoreModifications _ | .setEnsureIntegrity _ => False
  | _ => True

theorem Operation.Plain.registers {op : Operation} (h : op.Plain) (calls : Callback → Prop) :
    op.Registers calls := by
  intro c heq
  rw [heq] at h
  exact h.elim

namespace Repair

theorem checkFields_asks (refs : List (String × DanglingPolicy)) (e : Entity) :
    (checkFields e refs).Asks Operation.Plain := by
  induction refs generalizing e with
  | nil => trivial
  | cons ref rest ih =>
    obtain ⟨field, policy⟩ := ref
    unfold checkFields
    split
    · exact ih e
    · refine ⟨trivial, fun found => ?_⟩
      dsimp only
      split
      · exact ih e
      · cases policy with
        | delete => exact ⟨trivial, fun _ => trivial⟩
        | clear =>
          refine ⟨trivial, fun reply => ?_⟩
          cases reply with
          | ok _ => exact ih _
          | error err => trivial

theorem ifPresent_asks (reference : Option EntityId) {present absent : Program HookOutcome}
    (hpresent : present.Asks Operation.Plain) (habsent : absent.Asks Operation.Plain) :
    (ifPresent reference present absent).Asks Operation.Plain := by
  cases reference with
  | none => exact habsent
  | some target =>
    refine ⟨trivial, fun found => ?_⟩
    cases found with
    | true => exact hpresent
    | false => exact habsent

theorem checkOrder_asks (e : Entity) (customer : Option EntityId) (number : String) :
    (checkOrder e customer number).Asks Operation.Plain := by
  cases customer with
  | none => trivial
  | some target =>
    refine ⟨trivial, fun reply => ?_⟩
    cases reply with
    | ok other => trivial
    | error err =>
      dsimp only
      split
      · exact ⟨trivial, fun _ => trivial⟩
      · trivial

theorem checkRival_asks (e : Entity) (partner : Option EntityId) :
    (checkRival e partner).Asks Operation.Plain := by
  cases partner with
  | none => trivial
  | some target =>
    refine ⟨trivial, fun reply => ?_⟩
    cases reply with
    | error err => trivial
    | ok other =>
      dsimp only
      split
      · exact ⟨trivial, fun _ => trivial⟩
      · trivial

theorem check_asks (e : Entity) : (check e).Asks Operation.Plain := by
  have hdelete : (deleteSelf e).Asks Operation.Plain := ⟨trivial, fun _ => trivial⟩
  unfold check
  split
  · trivial
  · exact checkOrder_asks e _ _
  · exact ifPresent_asks _ trivial hdelete
  · exact ifPresent_asks _ trivial trivial
  · split
    · trivial
    · exact ifPresent_asks _ trivial hdelete
  · exact checkRival_asks e _
  · exact checkFields_asks _ e
  · trivial

theorem hooks_ask : Repair.hooks.Ask Operation.Plain := by
  intro hook e
  cases hook with
  | check => exact check_asks e
  | delete => trivial

end Repair

namespace Script

theorem bump_asks (e : Entity) (field : String) (limit : Nat) :
    (bump e field limit).Asks Operation.Plain := by
  unfold bump
  split
  · trivial
  · split
    · trivial
    · exact ⟨trivial, fun _ => trivial⟩

theorem perform_asks (registry : Registry) (e : Entity) (act : Act) :
    (perform registry e act).Asks Operation.Plain := by
  have report_asks : ∀ (e : Entity) (op : Operation) (outcome : op.Reply → Result Unit),
      op.Plain → (report e op outcome).Asks Operation.Plain :=
    fun _ _ _ hop => ⟨hop, fun _ => trivial⟩
  cases act with
  | delete _ | deleteSelf | mark _ _ | persistSelf | commit | rollback | set _ _ | require _ =>
    exact report_asks _ _ _ trivial
  | setQuietly _ _ | repair | fail _ => trivial
  | bump field limit => exact bump_asks e field limit
  | deleteEntity target =>
    refine ⟨trivial, fun reply => ?_⟩
    cases reply with
    | error err => trivial
    | ok other => exact report_asks _ _ _ trivial
  | setOther target field value =>
    refine ⟨trivial, fun reply => ?_⟩
    cases reply with
    | error err => trivial
    | ok other =>
      dsimp only
      split
      · trivial
      · exact report_asks _ _ _ trivial
  | persist snapshot =>
    rw [perform]
    split
    · trivial
    · exact report_asks _ _ _ trivial
  | look target =>
    exact ⟨trivial, fun _ => ⟨trivial, fun _ => ⟨trivial, fun _ => report_asks _ _ _ trivial⟩⟩⟩
  | find query => exact ⟨trivial, fun _ => report_asks _ _ _ trivial⟩

theorem guarding_asks (target : Option EntityId) (skipIf : Bool) {skip go : Program HookOutcome}
    (hskip : skip.Asks Operation.Plain) (hgo : go.Asks Operation.Plain) :
    (guarding target skipIf skip go).Asks Operation.Plain := by
  cases target with
  | none => exact hgo
  | some id =>
    refine ⟨trivial, fun found => ?_⟩
    dsimp only
    split
    · exact hskip
    · exact hgo

theorem run_asks (registry : Registry) (script : Script) (e : Entity) :
    (run registry script e).Asks Operation.Plain := by
  induction script generalizing e with
  | nil => trivial
  | cons action rest ih =>
    unfold run
    refine guarding_asks _ _ (ih e) (guarding_asks _ _ (ih e) ?_)
    refine (perform_asks registry e action.act).andThen fun outcome => ?_
    dsimp only
    split
    · exact ⟨trivial, fun _ => ih _⟩
    · split
      · trivial
      · exact ih _

/-- No hook that a store comes with changes settings or registers callbacks. -/
theorem hooks_ask (registry : Registry) (scripts : Scripts) :
    (hooks registry scripts).Ask Operation.Plain := by
  intro hook e
  obtain ⟨id, body⟩ := e
  cases body with
  | probe fields => exact ⟨trivial, fun _ => run_asks registry _ _⟩
  | _ => exact Repair.hooks_ask hook _

end Script

end EntityStore
